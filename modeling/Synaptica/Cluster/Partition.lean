import Synaptica.Lib.Intervals
import Synaptica.Lib.LexOrder
import Synaptica.Lib.Run

/-!
# The partition map

`synaptica_cluster::partition`. Every partition is responsible for the keys of a byte range, start
inclusive and end exclusive. `add_partition` rejects a range that overlaps one that is there, so a
key is never routed two ways: `routes_uniquely`, over every sequence of calls, says so together with
what `find_partition` and `all_partitions` answer.

The overlap test is `Intervals.Clash`. It is stricter than sharing a key: an empty range strictly
inside another one is rejected as well.
-/

namespace Synaptica

/-- Unique identifier for a partition. -/
structure PartitionId where
  name : String
  deriving DecidableEq, Repr

/-- Byte-range that a partition is responsible for. -/
structure PartitionRange where
  start : Bytes
  end_ : Bytes
  deriving DecidableEq, Repr

structure Partition where
  id : PartitionId
  range : PartitionRange
  leaderNode : String
  replicas : List String
  deriving DecidableEq, Repr

namespace Partition

/-- The first and the last bound of a partition, as the table of intervals reads them. -/
abbrev lo (p : Partition) : Bytes := p.range.start
abbrev hi (p : Partition) : Bytes := p.range.end_

/-- The new partition overlaps an existing one. -/
abbrev Overlaps (partition existing : Partition) : Prop := Intervals.Clash lo hi partition existing

/-- The key is in the range of the partition. -/
abbrev Contains (p : Partition) (key : Bytes) : Prop := Intervals.Owns lo hi p key

end Partition

/-- Maps keys to partitions using range-based partitioning. -/
structure PartitionMap where
  partitions : List Partition
  deriving DecidableEq, Repr

namespace PartitionMap

open Synaptica.Partition

def new : PartitionMap := ⟨[]⟩

/-- The comparison by which the partitions are kept sorted. -/
def startsBefore (a b : Partition) : Bool := decide (a.range.start ≤ b.range.start)

/-- What a rejected call says, naming the first partition in the way. -/
def overlapMessage (partition existing : Partition) : String :=
  "partition '" ++ partition.id.name ++ "' overlaps with existing partition '" ++ existing.id.name ++ "'"

/-- `add_partition`: the map after the call, and the answer. -/
def addPartition (m : PartitionMap) (partition : Partition) : PartitionMap × Except String Unit :=
  match m.partitions.find? fun existing => decide (partition.Overlaps existing) with
  | some existing => (m, .error (overlapMessage partition existing))
  | none => (⟨(m.partitions ++ [partition]).mergeSort startsBefore⟩, .ok ())

/-- Find the partition whose range contains `key`. -/
def findPartition (m : PartitionMap) (key : Bytes) : Option Partition :=
  m.partitions.find? fun p => decide (p.Contains key)

def allPartitions (m : PartitionMap) : List Partition := m.partitions

/-! ## One call -/

/-- What a call can do: it is rejected for an overlap and changes nothing, or nothing overlaps the
new partition and it is sorted in. -/
theorem addPartition_cases (m : PartitionMap) (p : Partition) :
    (∃ existing ∈ m.partitions, p.Overlaps existing ∧
        m.addPartition p = (m, .error (overlapMessage p existing))) ∨
      ((∀ existing ∈ m.partitions, ¬ p.Overlaps existing) ∧
        m.addPartition p = (⟨(m.partitions ++ [p]).mergeSort startsBefore⟩, .ok ())) := by
  unfold addPartition
  cases hfind : m.partitions.find? fun existing => decide (p.Overlaps existing) with
  | some existing =>
    have hover : p.Overlaps existing := by simpa using List.find?_some hfind
    exact .inl ⟨existing, List.mem_of_find?_eq_some hfind, hover, rfl⟩
  | none =>
    refine .inr ⟨?_, rfl⟩
    intro existing hmem
    simpa using List.find?_eq_none.mp hfind existing hmem

/-- A rejected call leaves the map unchanged. -/
theorem addPartition_rejected {m : PartitionMap} {p : Partition} {e : String}
    (h : (m.addPartition p).2 = .error e) : (m.addPartition p).1 = m := by
  obtain ⟨existing, -, -, hcall⟩ | ⟨-, hcall⟩ := addPartition_cases m p
  · rw [hcall]
  · rw [hcall] at h
    cases h

/-- Among ranges that hold a key at all, a partition is accepted if and only if it shares no key with
one that is there. -/
theorem addPartition_accepts_iff {m : PartitionMap} {p : Partition} (hp : p.lo < p.hi)
    (hm : ∀ existing ∈ m.partitions, existing.lo < existing.hi) :
    (m.addPartition p).2 = .ok () ↔
      ∀ existing ∈ m.partitions, ∀ key, ¬ (p.Contains key ∧ existing.Contains key) := by
  obtain ⟨existing, hmem, hover, hcall⟩ | ⟨hnone, hcall⟩ := addPartition_cases m p
  · obtain ⟨key, hshared⟩ :=
      (Intervals.clash_iff_exists_owns hp (hm existing hmem)).mp hover
    rw [hcall]
    constructor
    · intro h
      cases h
    · intro h
      exact absurd hshared (h existing hmem key)
  · rw [hcall]
    refine ⟨?_, fun _ => rfl⟩
    intro _ existing hmem key hshared
    exact hnone existing hmem (hshared.1.clash hshared.2)

/-- An empty range inside another one shares no key with it, and is rejected all the same. -/
example :
    ((⟨[⟨⟨"p1"⟩, ⟨[0x00], [0x80]⟩, "leader", []⟩]⟩ : PartitionMap).addPartition
      ⟨⟨"p2"⟩, ⟨[0x40], [0x40]⟩, "leader", []⟩).2 =
      .error "partition 'p2' overlaps with existing partition 'p1'" := rfl

theorem startsBefore_trans (a b c : Partition) (hab : startsBefore a b) (hbc : startsBefore b c) :
    startsBefore a c := by
  simp only [startsBefore, decide_eq_true_eq] at *
  exact hab.trans hbc

theorem startsBefore_total (a b : Partition) : startsBefore a b || startsBefore b a := by
  simpa [startsBefore] using le_total a.range.start b.range.start

/-! ## Every sequence of calls -/

/-- A map, with the partitions that were accepted on the way to it. -/
structure History where
  map : PartitionMap
  accepted : List Partition

/-- One call on a history. -/
def History.call (h : History) (p : Partition) : History :=
  match (h.map.addPartition p).2 with
  | .ok () => ⟨(h.map.addPartition p).1, h.accepted ++ [p]⟩
  | .error _ => ⟨(h.map.addPartition p).1, h.accepted⟩

/-- What a sequence of calls on a new map leads to. -/
def afterCalls (calls : List Partition) : History := Run.exec History.call ⟨new, []⟩ calls

/-- What every call preserves. -/
structure History.Sound (h : History) : Prop where
  separate : Intervals.Separate lo hi h.map.partitions
  sorted : h.map.partitions.Pairwise fun a b => a.range.start ≤ b.range.start
  perm : h.map.partitions.Perm h.accepted

theorem History.sound_call {h : History} (hsound : h.Sound) (p : Partition) : (h.call p).Sound := by
  unfold History.call
  obtain ⟨existing, -, -, hcall⟩ | ⟨hnone, hcall⟩ := addPartition_cases h.map p
  · -- A rejected partition.
    rw [hcall]
    exact hsound
  · rw [hcall]
    have hperm : ((h.map.partitions ++ [p]).mergeSort startsBefore).Perm (h.map.partitions ++ [p]) :=
      List.mergeSort_perm _ _
    refine ⟨?_, ?_, ?_⟩
    · exact (hsound.separate.append_singleton hnone).perm hperm.symm
    · have hsorted := List.pairwise_mergeSort startsBefore_trans startsBefore_total
        (h.map.partitions ++ [p])
      apply hsorted.imp
      intro a b hab
      simpa [startsBefore] using hab
    · exact hperm.trans (hsound.perm.append_right [p])

theorem sound_afterCalls (calls : List Partition) : (afterCalls calls).Sound := by
  have hstep : ∀ h p, History.Sound h → True → (h.call p).Sound :=
    fun _ p hsound _ => History.sound_call hsound p
  have hempty : History.Sound ⟨⟨[]⟩, []⟩ := ⟨List.Pairwise.nil, List.Pairwise.nil, List.Perm.nil⟩
  exact Run.invariant History.Sound hstep hempty (Run.each_true _ calls)

/-- **Routing is unambiguous after every sequence of calls.** A key is in the range of at most one
partition, which is the one that is found; the partitions are those accepted, sorted by start; a
rejected call changes nothing. -/
theorem routes_uniquely (calls : List Partition) :
    (∀ key, (afterCalls calls).map.allPartitions.Pairwise fun p q =>
        ¬ (p.Contains key ∧ q.Contains key)) ∧
      (∀ key, ∀ p ∈ (afterCalls calls).map.allPartitions, p.Contains key →
        (afterCalls calls).map.findPartition key = some p) ∧
      (∀ key, (∀ p ∈ (afterCalls calls).map.allPartitions, ¬ p.Contains key) →
        (afterCalls calls).map.findPartition key = none) ∧
      ((afterCalls calls).map.allPartitions.Pairwise fun p q => p.range.start ≤ q.range.start) ∧
      (afterCalls calls).map.allPartitions.Perm (afterCalls calls).accepted ∧
      ∀ p e, ((afterCalls calls).map.addPartition p).2 = .error e →
        ((afterCalls calls).map.addPartition p).1 = (afterCalls calls).map := by
  have hsound := sound_afterCalls calls
  refine ⟨?_, ?_, ?_, hsound.sorted, hsound.perm, ?_⟩
  · intro key
    exact hsound.separate.not_owned_twice key
  · intro key p hp hkey
    exact hsound.separate.find?_eq_some hp hkey
  · intro key hnone
    apply List.find?_eq_none.mpr
    intro p hp
    simpa using hnone p hp
  · intro p e h
    exact addPartition_rejected h

end PartitionMap

end Synaptica
