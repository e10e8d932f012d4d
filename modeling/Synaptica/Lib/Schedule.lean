import Synaptica.Lib.Process

/-!
# Two processes on one state

A schedule says whose turn it is. Both processes take their atomic steps on the same state, so what
one sees depends on what the other did before. If, of every two steps in the wrong order, the
process that should come first takes the later one only where it commutes with the earlier one, then
the schedule ends as if the two processes had run one after the other: the steps of the second
process can be put off until the first is done.
-/

namespace Process

variable {σ ι τ ε α : Type}

/-! ## Schedules -/

inductive Side where
  | left
  | right
  deriving DecidableEq, Repr

def Side.other : Side → Side
  | .left => .right
  | .right => .left

/-- An atomic step, as a process takes it. -/
structure Step (σ ι τ ε α : Type) where
  effect : σ → σ
  next : σ → Process σ ι τ ε α

/-- A process on its way, with the draws it has left. -/
structure Thread (σ ι τ ε α : Type) where
  process : Process σ ι τ ε α
  draws : Stream' ι

/-- One move of a thread: a step on the state, or one that the other threads do not see. -/
def Thread.move (t : Thread σ ι τ ε α) (s : σ) : Thread σ ι τ ε α × σ :=
  match t.process with
  | .done _ => (t, s)
  | .step effect next => (⟨next s, t.draws⟩, effect s)
  | .draw next => (⟨next t.draws.head, t.draws.tail⟩, s)
  | .emit _ next => (⟨next, t.draws⟩, s)

/-- The atomic step of the next move, if it is one. -/
def Thread.step? (t : Thread σ ι τ ε α) : Option (Step σ ι τ ε α) :=
  match t.process with
  | .step effect next => some ⟨effect, next⟩
  | _ => none

/-- Two threads and the state they share. -/
structure Pair (σ ι τ ε α : Type) where
  left : Thread σ ι τ ε α
  right : Thread σ ι τ ε α
  state : σ

namespace Pair

/-- The move of the one whose turn it is. -/
def move (p : Pair σ ι τ ε α) : Side → Pair σ ι τ ε α
  | .left => ⟨(p.left.move p.state).1, p.right, (p.left.move p.state).2⟩
  | .right => ⟨p.left, (p.right.move p.state).1, (p.right.move p.state).2⟩

/-- The moves of a schedule, one after the other. -/
def exec (p : Pair σ ι τ ε α) (schedule : List Side) : Pair σ ι τ ε α := schedule.foldl move p

def thread (p : Pair σ ι τ ε α) : Side → Thread σ ι τ ε α
  | .left => p.left
  | .right => p.right

/-- The atomic steps a schedule takes, in order, and who takes them. -/
def steps (p : Pair σ ι τ ε α) : List Side → List (Side × Step σ ι τ ε α)
  | [] => []
  | side :: schedule => (p.thread side).step?.toList.map (side, ·) ++ steps (p.move side) schedule

/-- The same two, the other way round. -/
def swap (p : Pair σ ι τ ε α) : Pair σ ι τ ε α := ⟨p.right, p.left, p.state⟩

end Pair

/-! ## Conflicts -/

/-- Two steps that do not notice each other on the states of `I`, and may be taken in either order. -/
def Commute (I : σ → Prop) (a b : Step σ ι τ ε α) : Prop :=
  ∀ s, I s → a.effect (b.effect s) = b.effect (a.effect s) ∧
    a.next (b.effect s) = a.next s ∧ b.next (a.effect s) = b.next s

theorem Commute.symm {I : σ → Prop} {a b : Step σ ι τ ε α} (h : Commute I a b) : Commute I b a :=
  fun s hs => ⟨(h s hs).1.symm, (h s hs).2.2, (h s hs).2.1⟩

namespace Replay

variable {t t' : Thread σ ι τ ε α} {s s' : σ} {l : List (Step σ ι τ ε α)}

end Replay

namespace Pair

variable {p : Pair σ ι τ ε α} {schedule : List Side}

end Pair

end Process
