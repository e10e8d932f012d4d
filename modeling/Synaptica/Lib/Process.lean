import Mathlib

/-!
# Computations that take atomic steps on a shared state

A `Process` is a computation cut at the points where others may run: it is over, or it takes one
atomic step on the shared state and goes on from what it saw there. It may also draw from a source
of randomness and report a result of its own. `run` executes a process alone; what it leaves behind
is an `Ended`. Because the points between the steps are kept, the same process can be interleaved
with another one.
-/

/-- A computation over a shared state `σ` that draws from `ι`, reports `τ`, and answers `α` or fails
with `ε`. -/
inductive Process (σ ι τ ε α : Type) where
  | done (result : Except ε α)
  | step (effect : σ → σ) (next : σ → Process σ ι τ ε α)
  | draw (next : ι → Process σ ι τ ε α)
  | emit (report : τ) (next : Process σ ι τ ε α)

namespace Process

variable {σ ι τ ε α β γ : Type}

/-- The rest of a computation starts where the first part answered; a failure ends it. -/
def bind : Process σ ι τ ε α → (α → Process σ ι τ ε β) → Process σ ι τ ε β
  | done (.ok a), f => f a
  | done (.error e), _ => done (.error e)
  | step effect next, f => step effect fun s => bind (next s) f
  | draw next, f => draw fun i => bind (next i) f
  | emit report next, f => emit report (bind next f)

instance : Monad (Process σ ι τ ε) where
  pure a := done (.ok a)
  bind := bind

/-- Fail. -/
def fail (e : ε) : Process σ ι τ ε α := done (.error e)

/-- A result that was computed without touching the state. -/
def ofExcept (r : Except ε α) : Process σ ι τ ε α := done r

/-- One atomic step: what it answers and what it leaves depend on the state it meets. -/
def atomic (effect : σ → σ) (answer : σ → Except ε α) : Process σ ι τ ε α :=
  step effect fun s => done (answer s)

/-- A step that only looks. -/
def read (answer : σ → Except ε α) : Process σ ι τ ε α := atomic id answer

/-- Draw once. -/
def drawn : Process σ ι τ ε ι := draw fun i => done (.ok i)

/-- Report once. -/
def report (t : τ) : Process σ ι τ ε Unit := emit t (done (.ok ()))

/-- Translate the failures. -/
def mapError {ε' : Type} (f : ε → ε') : Process σ ι τ ε α → Process σ ι τ ε' α
  | done r => done (r.mapError f)
  | step effect next => step effect fun s => mapError f (next s)
  | draw next => draw fun i => mapError f (next i)
  | emit report next => emit report (mapError f next)

/-! ## Running alone -/

/-- What a run leaves behind. -/
structure Ended (σ ι τ ε α : Type) where
  result : Except ε α
  state : σ
  /-- The draws that were not used. -/
  rest : Stream' ι
  reports : List τ

/-- Run without interruption. -/
def run : Process σ ι τ ε α → Stream' ι → σ → Ended σ ι τ ε α
  | done r, ω, s => ⟨r, s, ω, []⟩
  | step effect next, ω, s => run (next s) ω (effect s)
  | draw next, ω, s => run (next ω.head) ω.tail s
  | emit t next, ω, s =>
    let ended := run next ω s
    { ended with reports := t :: ended.reports }

theorem run_done (r : Except ε α) (ω : Stream' ι) (s : σ) :
    (done r : Process σ ι τ ε α).run ω s = ⟨r, s, ω, []⟩ := rfl

theorem run_step (effect : σ → σ) (next : σ → Process σ ι τ ε α) (ω : Stream' ι) (s : σ) :
    (step effect next).run ω s = (next s).run ω (effect s) := rfl

theorem run_draw (next : ι → Process σ ι τ ε α) (ω : Stream' ι) (s : σ) :
    (draw next).run ω s = (next ω.head).run ω.tail s := rfl

theorem run_emit (t : τ) (next : Process σ ι τ ε α) (ω : Stream' ι) (s : σ) :
    (emit t next).run ω s = { next.run ω s with reports := t :: (next.run ω s).reports } := rfl

@[simp] theorem run_pure (a : α) (ω : Stream' ι) (s : σ) :
    (pure a : Process σ ι τ ε α).run ω s = ⟨.ok a, s, ω, []⟩ := rfl

@[simp] theorem run_fail (e : ε) (ω : Stream' ι) (s : σ) :
    (fail e : Process σ ι τ ε α).run ω s = ⟨.error e, s, ω, []⟩ := rfl

@[simp] theorem run_ofExcept (r : Except ε α) (ω : Stream' ι) (s : σ) :
    (ofExcept r : Process σ ι τ ε α).run ω s = ⟨r, s, ω, []⟩ := rfl

@[simp] theorem run_atomic (effect : σ → σ) (answer : σ → Except ε α) (ω : Stream' ι) (s : σ) :
    (atomic effect answer : Process σ ι τ ε α).run ω s = ⟨answer s, effect s, ω, []⟩ := rfl

@[simp] theorem run_read (answer : σ → Except ε α) (ω : Stream' ι) (s : σ) :
    (read answer : Process σ ι τ ε α).run ω s = ⟨answer s, s, ω, []⟩ := rfl

@[simp] theorem run_drawn (ω : Stream' ι) (s : σ) :
    (drawn : Process σ ι τ ε ι).run ω s = ⟨.ok ω.head, s, ω.tail, []⟩ := rfl

@[simp] theorem run_report (t : τ) (ω : Stream' ι) (s : σ) :
    (report t : Process σ ι τ ε Unit).run ω s = ⟨.ok (), s, ω, [t]⟩ := rfl

/-- Go on from where a run ended. -/
def Ended.andThen (ended : Ended σ ι τ ε α) (f : α → Process σ ι τ ε β) : Ended σ ι τ ε β :=
  match ended.result with
  | .ok a =>
    let last := (f a).run ended.rest ended.state
    { last with reports := ended.reports ++ last.reports }
  | .error e => ⟨.error e, ended.state, ended.rest, ended.reports⟩

/-- Running a sequence is running its parts one after the other. -/
theorem run_bind (p : Process σ ι τ ε α) (f : α → Process σ ι τ ε β) (ω : Stream' ι) (s : σ) :
    (p >>= f).run ω s = (p.run ω s).andThen f := by
  show (bind p f).run ω s = _
  induction p generalizing ω s with
  | done r => cases r <;> rfl
  | step effect next ih => exact ih s ω (effect s)
  | draw next ih => exact ih ω.head ω.tail s
  | emit t next ih =>
    rw [bind, run_emit, run_emit, ih]
    unfold Ended.andThen
    cases (next.run ω s).result <;> rfl

/-- A sequence succeeds when its first part does and the second one goes on from there to succeed. -/
theorem result_bind_eq_ok {p : Process σ ι τ ε α} {f : α → Process σ ι τ ε β} {ω : Stream' ι} {s : σ}
    {b : β} : ((p >>= f).run ω s).result = .ok b ↔ ∃ a, (p.run ω s).result = .ok a ∧
      ((f a).run (p.run ω s).rest (p.run ω s).state).result = .ok b := by
  rw [run_bind, Ended.andThen]
  cases (p.run ω s).result <;> simp

theorem run_mapError {ε' : Type} (f : ε → ε') (p : Process σ ι τ ε α) (ω : Stream' ι) (s : σ) :
    (p.mapError f).run ω s =
      ⟨(p.run ω s).result.mapError f, (p.run ω s).state, (p.run ω s).rest, (p.run ω s).reports⟩ := by
  induction p generalizing ω s with
  | done r => rfl
  | step effect next ih => exact ih s ω (effect s)
  | draw next ih => exact ih ω.head ω.tail s
  | emit t next ih => rw [mapError, run_emit, run_emit, ih]

/-! ## What a run draws -/

/-- The draws of a run, in order. -/
def draws : Process σ ι τ ε α → Stream' ι → σ → List ι
  | done _, _, _ => []
  | step effect next, ω, s => draws (next s) ω (effect s)
  | draw next, ω, s => ω.head :: draws (next ω.head) ω.tail s
  | emit _ next, ω, s => draws next ω s

/-- A sequence whose first part succeeds draws what its parts draw. -/
theorem draws_bind {p : Process σ ι τ ε α} {f : α → Process σ ι τ ε β} {ω : Stream' ι} {s : σ} {a : α}
    (h : (p.run ω s).result = .ok a) :
    (p >>= f).draws ω s = p.draws ω s ++ (f a).draws (p.run ω s).rest (p.run ω s).state := by
  show (bind p f).draws ω s = _
  induction p generalizing ω s with
  | done r =>
    cases h
    rfl
  | step effect next ih => exact ih s h
  | draw next ih => exact congrArg (List.cons ω.head) (ih ω.head h)
  | emit t next ih => exact ih h

theorem draws_mapError {ε' : Type} (f : ε → ε') (p : Process σ ι τ ε α) (ω : Stream' ι) (s : σ) :
    (p.mapError f).draws ω s = p.draws ω s := by
  induction p generalizing ω s with
  | done r => rfl
  | step effect next ih => exact ih s ω (effect s)
  | draw next ih => exact congrArg (List.cons ω.head) (ih ω.head ω.tail s)
  | emit t next ih => exact ih ω s

/-! ## What a run does to the state -/

/-- Every run that starts in `P` ends in `Q`, whatever is drawn. -/
def Satisfies (P : σ → Prop) (p : Process σ ι τ ε α) (Q : Except ε α → σ → Prop) : Prop :=
  ∀ ω s, P s → Q (p.run ω s).result (p.run ω s).state

theorem Satisfies.imp {P P' : σ → Prop} {p : Process σ ι τ ε α} {Q Q' : Except ε α → σ → Prop}
    (h : p.Satisfies P Q) (hP : ∀ s, P' s → P s) (hQ : ∀ r s, Q r s → Q' r s) :
    p.Satisfies P' Q' :=
  fun ω s hs => hQ _ _ (h ω s (hP s hs))

/-- Sequencing: an answer of the first part is a start of the second, a failure is the end. -/
theorem satisfies_bind {P : σ → Prop} {p : Process σ ι τ ε α} {f : α → Process σ ι τ ε β}
    {Q : Except ε β → σ → Prop} (R : α → σ → Prop)
    (hp : p.Satisfies P fun r s => (∀ a, r = .ok a → R a s) ∧ ∀ e, r = .error e → Q (.error e) s)
    (hf : ∀ a, (f a).Satisfies (R a) Q) : (p >>= f).Satisfies P Q := by
  intro ω s hs
  obtain ⟨hok, herror⟩ := hp ω s hs
  rw [run_bind, Ended.andThen]
  cases hr : (p.run ω s).result with
  | ok a => exact hf a _ _ (hok a hr)
  | error e => exact herror e hr

/-- One run of a sequence: what holds where the first part ends, and where the second part ends when the
first one succeeds, holds at the end. -/
theorem state_bind {I : σ → Prop} {p : Process σ ι τ ε α} {f : α → Process σ ι τ ε β} {ω : Stream' ι}
    {s : σ} (hp : I (p.run ω s).state) (hf : ∀ a, (p.run ω s).result = .ok a →
      I ((f a).run (p.run ω s).rest (p.run ω s).state).state) : I ((p >>= f).run ω s).state := by
  rw [run_bind, Ended.andThen]
  cases hr : (p.run ω s).result with
  | ok a => exact hf a hr
  | error e => exact hp

/-- Every answer the process gives has the property, whatever is drawn. -/
def Answers (Q : α → Prop) (p : Process σ ι τ ε α) : Prop :=
  ∀ ω s a, (p.run ω s).result = .ok a → Q a

theorem Answers.imp {Q Q' : α → Prop} {p : Process σ ι τ ε α} (h : p.Answers Q)
    (hQ : ∀ a, Q a → Q' a) : p.Answers Q' :=
  fun ω s a ha => hQ a (h ω s a ha)

theorem answers_true (p : Process σ ι τ ε α) : p.Answers fun _ => True := fun _ _ _ _ => trivial

theorem answers_pure {Q : α → Prop} {a : α} (h : Q a) : (pure a : Process σ ι τ ε α).Answers Q := by
  intro _ _ b hb
  cases hb
  exact h

theorem answers_ofExcept {Q : α → Prop} {r : Except ε α} (h : ∀ a, r = .ok a → Q a) :
    (ofExcept r : Process σ ι τ ε α).Answers Q :=
  fun _ _ a ha => h a ha

theorem answers_fail (Q : α → Prop) (e : ε) : (fail e : Process σ ι τ ε α).Answers Q := by
  intro _ _ a ha
  cases ha

/-- Sequencing: the second part answers from what the first part answered. -/
theorem answers_bind {R : α → Prop} {Q : β → Prop} {p : Process σ ι τ ε α}
    {f : α → Process σ ι τ ε β} (hp : p.Answers R) (hf : ∀ a, R a → (f a).Answers Q) :
    (p >>= f).Answers Q := by
  intro ω s b hb
  rw [run_bind, Ended.andThen] at hb
  cases hr : (p.run ω s).result with
  | ok a =>
    rw [hr] at hb
    exact hf a (hp ω s a hr) _ _ b hb
  | error e =>
    rw [hr] at hb
    cases hb

/-- A property of the state that no run of the process breaks. -/
def Keeps (I : σ → Prop) (p : Process σ ι τ ε α) : Prop := p.Satisfies I fun _ => I

theorem keeps_pure (I : σ → Prop) (a : α) : (pure a : Process σ ι τ ε α).Keeps I :=
  fun _ _ hs => hs

theorem keeps_ofExcept (I : σ → Prop) (r : Except ε α) : (ofExcept r : Process σ ι τ ε α).Keeps I :=
  fun _ _ hs => hs

theorem keeps_fail (I : σ → Prop) (e : ε) : (fail e : Process σ ι τ ε α).Keeps I :=
  fun _ _ hs => hs

theorem keeps_read (I : σ → Prop) (answer : σ → Except ε α) :
    (read answer : Process σ ι τ ε α).Keeps I :=
  fun _ _ hs => hs

theorem keeps_drawn (I : σ → Prop) : (drawn : Process σ ι τ ε ι).Keeps I :=
  fun _ _ hs => hs

theorem keeps_report (I : σ → Prop) (t : τ) : (report t : Process σ ι τ ε Unit).Keeps I :=
  fun _ _ hs => hs

theorem keeps_bind {I : σ → Prop} {p : Process σ ι τ ε α} {f : α → Process σ ι τ ε β}
    (hp : p.Keeps I) (hf : ∀ a, (f a).Keeps I) : (p >>= f).Keeps I :=
  satisfies_bind (fun _ => I) (hp.imp (fun _ h => h) fun _ _ h => ⟨fun _ _ => h, fun _ _ => h⟩) hf

/-- A process that leaves every state as it is. -/
def Reads (p : Process σ ι τ ε α) : Prop := ∀ s₀, p.Keeps (· = s₀)

theorem Reads.state_eq {p : Process σ ι τ ε α} (h : p.Reads) (ω : Stream' ι) (s : σ) :
    (p.run ω s).state = s :=
  h s ω s rfl

theorem Reads.keeps {p : Process σ ι τ ε α} (h : p.Reads) (I : σ → Prop) : p.Keeps I := by
  intro ω s hs
  show I (p.run ω s).state
  rwa [h.state_eq]

theorem reads_pure (a : α) : (pure a : Process σ ι τ ε α).Reads := fun _ => keeps_pure _ a
theorem reads_ofExcept (r : Except ε α) : (ofExcept r : Process σ ι τ ε α).Reads :=
  fun _ => keeps_ofExcept _ r
theorem reads_fail (e : ε) : (fail e : Process σ ι τ ε α).Reads := fun _ => keeps_fail _ e
theorem reads_read (answer : σ → Except ε α) : (read answer : Process σ ι τ ε α).Reads :=
  fun _ => keeps_read _ answer
theorem reads_drawn : (drawn : Process σ ι τ ε ι).Reads := fun _ => keeps_drawn _
theorem reads_report (t : τ) : (report t : Process σ ι τ ε Unit).Reads := fun _ => keeps_report _ t

theorem reads_bind {p : Process σ ι τ ε α} {f : α → Process σ ι τ ε β} (hp : p.Reads)
    (hf : ∀ a, (f a).Reads) : (p >>= f).Reads :=
  fun s₀ => keeps_bind (hp s₀) fun a => hf a s₀

/-! ## Looking -/

/-- A process that only looks: what it answers is a function of the state it meets, and it neither
draws nor reports. -/
def Looks (p : Process σ ι τ ε α) (answer : σ → Except ε α) : Prop :=
  ∀ ω s, p.run ω s = ⟨answer s, s, ω, []⟩

theorem looks_pure (a : α) : (pure a : Process σ ι τ ε α).Looks fun _ => .ok a := fun _ _ => rfl

theorem looks_ofExcept (r : Except ε α) : (ofExcept r : Process σ ι τ ε α).Looks fun _ => r :=
  fun _ _ => rfl

theorem looks_fail (e : ε) : (fail e : Process σ ι τ ε α).Looks fun _ => .error e := fun _ _ => rfl

theorem looks_read (answer : σ → Except ε α) : (read answer : Process σ ι τ ε α).Looks answer :=
  fun _ _ => rfl

/-- Sequencing: both parts look at the same state. -/
theorem looks_bind {p : Process σ ι τ ε α} {f : α → Process σ ι τ ε β} {answer : σ → Except ε α}
    {next : α → σ → Except ε β} (hp : p.Looks answer) (hf : ∀ a, (f a).Looks (next a)) :
    (p >>= f).Looks fun s => answer s >>= fun a => next a s := by
  intro ω s
  rw [run_bind, hp ω s]
  cases h : answer s with
  | error e =>
    simp only [Ended.andThen, h]
    rfl
  | ok a =>
    simp only [Ended.andThen, h, hf a ω s]
    rfl

theorem Looks.reads {p : Process σ ι τ ε α} {answer : σ → Except ε α} (h : p.Looks answer) :
    p.Reads := by
  intro s₀ ω s hs
  show (p.run ω s).state = s₀
  rw [h ω s, hs]

end Process
