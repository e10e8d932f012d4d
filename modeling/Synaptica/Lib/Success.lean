import Synaptica.Lib.Process

/-!
# Successful runs, taken apart

`Goes p c a c'` says that `p`, started in the configuration `c`, succeeds with the answer `a` and ends
in `c'`. A configuration holds the state, the draws that are left, and all that has been drawn and
reported so far; so a sequence goes through one configuration in the middle (`goes_bind`), and a
successful run is peeled apart along its binds.
-/

namespace Process

variable {σ ι τ ε α β : Type}

/-- Where a run stands. -/
structure Config (σ ι τ : Type) where
  state : σ
  left : Stream' ι
  drawn : List ι
  reports : List τ

/-- Where a run starts. -/
def Config.start (ω : Stream' ι) (s : σ) : Config σ ι τ := ⟨s, ω, [], []⟩

/-- From `c` the process succeeds with `a` and ends in `c'`. -/
def Goes (p : Process σ ι τ ε α) (c : Config σ ι τ) (a : α) (c' : Config σ ι τ) : Prop :=
  let ended := p.run c.left c.state
  ended.result = .ok a ∧
    c' = ⟨ended.state, ended.rest, c.drawn ++ p.draws c.left c.state, c.reports ++ ended.reports⟩

variable {c c' : Config σ ι τ} {a : α} {b : β}

/-- A run that succeeds goes somewhere. -/
theorem goes_of_result {p : Process σ ι τ ε α} {ω : Stream' ι} {s : σ}
    (h : (p.run ω s).result = .ok a) : p.Goes (.start ω s) a
      ⟨(p.run ω s).state, (p.run ω s).rest, p.draws ω s, (p.run ω s).reports⟩ :=
  ⟨h, rfl⟩

/-- **Sequences**: the second part starts where the first one ends. -/
theorem goes_bind {p : Process σ ι τ ε α} {f : α → Process σ ι τ ε β} :
    (p >>= f).Goes c b c' ↔ ∃ a c₁, p.Goes c a c₁ ∧ (f a).Goes c₁ b c' := by
  constructor
  · rintro ⟨hresult, rfl⟩
    obtain ⟨a, ha, hb⟩ := result_bind_eq_ok.mp hresult
    refine ⟨a, _, ⟨ha, rfl⟩, hb, ?_⟩
    rw [run_bind, Ended.andThen, ha, draws_bind ha, List.append_assoc, List.append_assoc]
  · rintro ⟨a, c₁, ⟨ha, rfl⟩, hb, rfl⟩
    refine ⟨result_bind_eq_ok.mpr ⟨a, ha, hb⟩, ?_⟩
    rw [run_bind, Ended.andThen, ha, draws_bind ha, List.append_assoc, List.append_assoc]

theorem goes_pure {a' : α} : (pure a : Process σ ι τ ε α).Goes c a' c' ↔ a = a' ∧ c' = c := by
  simp [Goes, show (pure a : Process σ ι τ ε α).draws c.left c.state = [] from rfl]

theorem goes_ofExcept {r : Except ε α} :
    (ofExcept r : Process σ ι τ ε α).Goes c a c' ↔ r = .ok a ∧ c' = c := by
  simp [Goes, show (ofExcept r : Process σ ι τ ε α).draws c.left c.state = [] from rfl]

theorem not_goes_fail {e : ε} : ¬ (fail e : Process σ ι τ ε α).Goes c a c' := by
  simp [Goes]

theorem goes_atomic {effect : σ → σ} {answer : σ → Except ε α} :
    (atomic effect answer : Process σ ι τ ε α).Goes c a c' ↔
      answer c.state = .ok a ∧ c' = { c with state := effect c.state } := by
  simp [Goes, show (atomic effect answer : Process σ ι τ ε α).draws c.left c.state = [] from rfl]

theorem goes_read {answer : σ → Except ε α} :
    (read answer : Process σ ι τ ε α).Goes c a c' ↔ answer c.state = .ok a ∧ c' = c :=
  goes_atomic

theorem goes_drawn {i : ι} : (drawn : Process σ ι τ ε ι).Goes c i c' ↔
    c.left.head = i ∧ c' = { c with left := c.left.tail, drawn := c.drawn ++ [c.left.head] } := by
  simp [Goes, show (drawn : Process σ ι τ ε ι).draws c.left c.state = [c.left.head] from rfl]

theorem goes_report {t : τ} {u : Unit} : (report t : Process σ ι τ ε Unit).Goes c u c' ↔
    c' = { c with reports := c.reports ++ [t] } := by
  simp [Goes, show (report t : Process σ ι τ ε Unit).draws c.left c.state = [] from rfl]

theorem goes_mapError {ε' : Type} {f : ε → ε'} {p : Process σ ι τ ε α} :
    (p.mapError f).Goes c a c' ↔ p.Goes c a c' := by
  have hresult : ∀ r : Except ε α, r.mapError f = .ok a ↔ r = .ok a := by
    intro r
    cases r <;> simp [Except.mapError]
  simp [Goes, run_mapError, draws_mapError, hresult]

/-- A run goes to one place. -/
theorem Goes.unique {p : Process σ ι τ ε α} {a' : α} {c'' : Config σ ι τ} (h : p.Goes c a c')
    (h' : p.Goes c a' c'') : a = a' ∧ c' = c'' :=
  ⟨Except.ok.inj (h.1.symm.trans h'.1), h.2.trans h'.2.symm⟩

/-- A process that only looks ends where it started. -/
theorem Looks.goes {p : Process σ ι τ ε α} {answer : σ → Except ε α} (h : p.Looks answer)
    (hgo : p.Goes c a c') : answer c.state = .ok a ∧ c'.state = c.state ∧ c'.left = c.left ∧
      c'.reports = c.reports := by
  obtain ⟨hresult, rfl⟩ := hgo
  rw [h c.left c.state] at hresult ⊢
  exact ⟨hresult, rfl, rfl, List.append_nil _⟩

/-- What has been drawn stays drawn. -/
theorem Goes.drawn_isPrefix {p : Process σ ι τ ε α} (h : p.Goes c a c') : c.drawn <+: c'.drawn := by
  rw [h.2]
  exact List.prefix_append _ _

/-! ## What a successful run leaves alone -/

/-- A process that reports nothing when it succeeds. -/
def Silent (p : Process σ ι τ ε α) : Prop := ∀ ⦃c a c'⦄, p.Goes c a c' → c'.reports = c.reports

theorem silent_pure (a : α) : (pure a : Process σ ι τ ε α).Silent := by
  intro c a' c' hgo
  rw [(goes_pure.mp hgo).2]

theorem silent_ofExcept (r : Except ε α) : (ofExcept r : Process σ ι τ ε α).Silent := by
  intro c a c' hgo
  rw [(goes_ofExcept.mp hgo).2]

theorem silent_fail (e : ε) : (fail e : Process σ ι τ ε α).Silent :=
  fun _ _ _ hgo => absurd hgo not_goes_fail

theorem silent_atomic (effect : σ → σ) (answer : σ → Except ε α) :
    (atomic effect answer : Process σ ι τ ε α).Silent := by
  intro c a c' hgo
  rw [(goes_atomic.mp hgo).2]

theorem silent_drawn : (drawn : Process σ ι τ ε ι).Silent := by
  intro c i c' hgo
  rw [(goes_drawn.mp hgo).2]

theorem silent_bind {p : Process σ ι τ ε α} {f : α → Process σ ι τ ε β} (hp : p.Silent)
    (hf : ∀ a, (f a).Silent) : (p >>= f).Silent := by
  intro c b c' hgo
  obtain ⟨a, c₁, hfirst, hrest⟩ := goes_bind.mp hgo
  rw [hf a hrest, hp hfirst]

theorem Looks.silent {p : Process σ ι τ ε α} {answer : σ → Except ε α} (h : p.Looks answer) :
    p.Silent :=
  fun _ _ _ hgo => (h.goes hgo).2.2.2

/-- A process that only reads the state leaves it as it is. -/
theorem Reads.goes {p : Process σ ι τ ε α} (h : p.Reads) (hgo : p.Goes c a c') :
    c'.state = c.state := by
  rw [hgo.2]
  exact h.state_eq _ _

/-- What the process keeps, a successful run keeps. -/
theorem Keeps.goes {I : σ → Prop} {p : Process σ ι τ ε α} (h : p.Keeps I) (hgo : p.Goes c a c')
    (hc : I c.state) : I c'.state := by
  rw [hgo.2]
  exact h _ _ hc

end Process
