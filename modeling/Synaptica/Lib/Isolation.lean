import Synaptica.Lib.Run

/-!
# Snapshot isolation, as a client sees it

The ideal store a snapshot-isolated database pretends to be. There is one committed state. A
transaction copies it when it begins, buffers its own writes, and reads its last buffered write of a
key or else its copy. A commit applies the buffered writes to the committed state in one go.

Whether a commit is allowed is not decided here: the ideal store is driven by the events that did
take effect. Keys and values are arbitrary; a deletion is a write of `none`.
-/

namespace Isolation

variable {κ ν : Type} [DecidableEq κ]

structure Tx (κ ν : Type) where
  /-- The committed state when the transaction began. -/
  snapshot : κ → Option ν
  /-- Buffered writes, oldest first. -/
  writes : List (κ × Option ν)
  active : Bool

structure State (κ ν : Type) where
  committed : κ → Option ν
  txs : List (Tx κ ν)

/-- What a transaction did; transactions are named by the order they began in. -/
inductive Event (κ ν : Type) where
  | begin
  | write (tx : Nat) (key : κ) (value : Option ν)
  | commit (tx : Nat)
  | rollback (tx : Nat)

/-- The last write of a key in a buffer. -/
def lastWrite (writes : List (κ × Option ν)) (k : κ) : Option (Option ν) :=
  (writes.reverse.find? fun w => decide (w.1 = k)).map Prod.snd

/-- A state with a buffer of writes applied to it. -/
def applyWrites (state : κ → Option ν) (writes : List (κ × Option ν)) (k : κ) : Option ν :=
  (lastWrite writes k).getD (state k)

/-- What an active transaction reads. -/
def Tx.read (t : Tx κ ν) (k : κ) : Option ν := applyWrites t.snapshot t.writes k

/-- Nothing committed and nothing begun. -/
def State.init : State κ ν := { committed := fun _ => none, txs := [] }

def State.step (s : State κ ν) : Event κ ν → State κ ν
  | .begin => { s with txs := s.txs ++ [⟨s.committed, [], true⟩] }
  | .write i k v =>
    { s with txs := s.txs.modify i fun t => { t with writes := t.writes ++ [(k, v)] } }
  | .commit i =>
    match s.txs[i]? with
    | some t =>
      { committed := applyWrites s.committed t.writes
        txs := s.txs.set i { t with active := false } }
    | none => s
  | .rollback i => { s with txs := s.txs.modify i fun t => { t with active := false } }

/-- The state after a sequence of events. -/
def State.run (s : State κ ν) (events : List (Event κ ν)) : State κ ν :=
  Run.exec State.step s events

omit [DecidableEq κ] in
theorem getElem?_modify_map {α : Type*} (l : List α) (i j : Nat) (f : α → α) :
    (l.modify i f)[j]? = l[j]?.map fun a => if i = j then f a else a := by
  rw [List.getElem?_modify]
  by_cases h : i = j <;> simp [h]

/-- **Reads are fixed at the beginning**: only a transaction's own writes change what it reads. -/
theorem read_step (s : State κ ν) {e : Event κ ν} {i : Nat} (he : ∀ k v, e ≠ .write i k v)
    {t : Tx κ ν} (ht : s.txs[i]? = some t) :
    ∃ t', (s.step e).txs[i]? = some t' ∧ t'.read = t.read := by
  have hlt := (List.getElem?_eq_some_iff.mp ht).1
  cases e with
  | begin => exact ⟨t, by rw [State.step, List.getElem?_append_left hlt, ht], rfl⟩
  | write j k v =>
    have hji : j ≠ i := by
      rintro rfl
      exact he k v rfl
    exact ⟨t, by rw [State.step, getElem?_modify_map, ht]; simp [hji], rfl⟩
  | commit j =>
    simp only [State.step]
    split
    · next t₀ ht₀ =>
      by_cases hji : j = i
      · subst hji
        obtain rfl : t₀ = t := Option.some.inj (ht₀.symm.trans ht)
        exact ⟨_, List.getElem?_set_self hlt, rfl⟩
      · exact ⟨t, by rw [List.getElem?_set_ne hji, ht], rfl⟩
    · exact ⟨t, ht, rfl⟩
  | rollback j =>
    refine ⟨_, by rw [State.step, getElem?_modify_map, ht]; rfl, ?_⟩
    split <;> rfl

end Isolation
