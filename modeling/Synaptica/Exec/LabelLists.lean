import Synaptica.Exec.ExpandStep

/-!
# What a label list means

The labels of a node pattern are checked in three places. A scan goes by the key of the first label, and
checks all of them when there is more than one; an index scan checks all of them; an expand step is content
with one of them.

* `ScanAccepts`, `IndexScanAccepts`, `ExpandAccepts` — the node comes through.
* `accepts_alike_iff` — when the three agree with what the list says.
-/

namespace Synaptica.Exec

open Gql Storage

variable (env : Env) (graphId : GraphId) (db : Db) (labels : List String) (n : Node)

/-- The node is among those that `exec_scan` lays out. -/
def ScanAccepts : Prop := ∃ ns, scanWith env graphId db labels = .ok ns ∧ n ∈ ns

/-- The node is among those that `exec_index_scan` loads, of the ids that the index answers. -/
def IndexScanAccepts (ids : List NodeId) : Prop := n ∈ loadedNodes env graphId labels ids db

/-- `exec_expand` keeps the edge, behind which it finds the node. -/
def ExpandAccepts (u : NodeId) (direction : Direction) (e : Edge) : Prop :=
  behind env graphId u direction labels db e = some (e, n)

/-- The node carries all of the labels or none of them; with a single label that it does not carry, it has
no label with the key of that one either. -/
def AllOrNone (labels : List String) (n : Node) : Prop :=
  (∀ l ∈ labels, hasLabel n l) ∨
    (∀ l ∈ labels, ¬ hasLabel n l) ∧ ∀ l, labels = [l] → ¬ FoundUnder l n

variable {env graphId db labels n} {P : Node → Prop} {Q : Edge → Prop}

theorem scanAccepts_iff (h : WellIndexed env.rt.bin P Q db) (hn : HasNode env.rt.bin db graphId n) :
    ScanAccepts env graphId db labels n ↔ Reached labels n := by
  obtain ⟨ns, hns, -, hmem⟩ := @exists_scanWith_inIdOrder env graphId db _ _ h labels
  rw [ScanAccepts, hns]
  constructor
  · rintro ⟨_, heq, hmem'⟩
    cases heq
    exact ((hmem n).mp hmem').2
  · intro hreached
    exact ⟨ns, rfl, (hmem n).mpr ⟨hn, hreached⟩⟩

theorem indexScanAccepts_iff (hn : HasNode env.rt.bin db graphId n) {ids : List NodeId}
    (hid : n.id ∈ ids) :
    IndexScanAccepts env graphId db labels n ids ↔ ∀ l ∈ labels, hasLabel n l := by
  rw [IndexScanAccepts, loadedNodes, List.mem_filterMap]
  constructor
  · rintro ⟨i, -, hi⟩
    split at hi
    · next node hget =>
      split at hi
      · next hall =>
        cases hi
        exact List.all_eq_true.mp hall
      · cases hi
    · cases hi
  · intro hall
    refine ⟨n.id, hid, ?_⟩
    have hget : StorageEngine.getNode env.rt.bin db graphId n.id = .ok n := hn
    rw [hget]
    exact if_pos (List.all_eq_true.mpr hall)

theorem expandAccepts_iff (h : WellIndexed env.rt.bin P Q db) (hn : HasNode env.rt.bin db graphId n)
    {u : NodeId} {direction : Direction} {e : Edge} (he : neighbour u direction e = n.id) :
    ExpandAccepts env graphId db labels n u direction e ↔ labels = [] ∨ ∃ l ∈ labels, hasLabel n l := by
  rw [ExpandAccepts, behind_eq_some h]
  simp [he, hn]

/-- A scan reaches more than the nodes with the labels in one case only. -/
theorem reached_iff : Reached labels n ↔
    (∀ l ∈ labels, hasLabel n l) ∨ ∃ l, labels = [l] ∧ FoundUnder l n := by
  match labels with
  | [] => simp [Reached]
  | [l] =>
    have hfound : hasLabel n l → FoundUnder l n := fun hl => foundUnder_of_mem (hasLabel_iff.mp hl)
    simpa [Reached] using hfound
  | l :: l' :: rest => simp [Reached]

/-- **A label list means the same at every position** for a node that carries all or none of the labels,
and only then. -/
theorem accepts_alike_iff (h : WellIndexed env.rt.bin P Q db) (hn : HasNode env.rt.bin db graphId n)
    {ids : List NodeId} (hid : n.id ∈ ids) {u : NodeId} {direction : Direction} {e : Edge}
    (he : neighbour u direction e = n.id) :
    ((ScanAccepts env graphId db labels n ↔ ∀ l ∈ labels, hasLabel n l) ∧
      (ExpandAccepts env graphId db labels n u direction e ↔ ∀ l ∈ labels, hasLabel n l) ∧
      (IndexScanAccepts env graphId db labels n ids ↔ ∀ l ∈ labels, hasLabel n l)) ↔
      AllOrNone labels n := by
  rw [scanAccepts_iff h hn, expandAccepts_iff h hn he, indexScanAccepts_iff hn hid, reached_iff, AllOrNone]
  by_cases hall : ∀ l ∈ labels, hasLabel n l
  · -- a node with all of the labels is accepted everywhere
    have hany : labels = [] ∨ ∃ l ∈ labels, hasLabel n l := by
      cases labels with
      | nil => exact .inl rfl
      | cons l rest => exact .inr ⟨l, List.mem_cons_self, hall l List.mem_cons_self⟩
    exact iff_of_true ⟨⟨fun _ => hall, fun _ => .inl hall⟩, ⟨fun _ => hall, fun _ => hany⟩, Iff.rfl⟩
      (.inl hall)
  · have hne : labels ≠ [] := by
      rintro rfl
      exact hall (by simp)
    simp only [hall, false_or, iff_false, hne, iff_self, and_true, not_exists, not_and]
    exact and_comm

/-! ## One person -/

theorem hasLabel_person {l : String} : hasLabel person l ↔ l = "Person" := by
  have hmem : (⟨l⟩ : Label) ∈ person.labels ↔ compare (⟨"Person"⟩ : Label) ⟨l⟩ = .eq := by
    simp [person]
  rw [hasLabel_iff, hmem, Std.LawfulEqCmp.compare_eq_iff_eq, Label.mk.injEq, eq_comm]

/-- `(x:Person)`. -/
theorem accepts_alike_person :
    HasNode (loopEnv "KNOWS").rt.bin (loopStore "KNOWS") sampleGraph person ∧
      (((ScanAccepts (loopEnv "KNOWS") sampleGraph (loopStore "KNOWS") ["Person"] person ↔
          ∀ l ∈ ["Person"], hasLabel person l) ∧
        (ExpandAccepts (loopEnv "KNOWS") sampleGraph (loopStore "KNOWS") ["Person"] person person.id
          .outgoing (loop "KNOWS") ↔ ∀ l ∈ ["Person"], hasLabel person l) ∧
        (IndexScanAccepts (loopEnv "KNOWS") sampleGraph (loopStore "KNOWS") ["Person"] person [person.id] ↔
          ∀ l ∈ ["Person"], hasLabel person l)) ↔ AllOrNone ["Person"] person) :=
  ⟨hasNode_person "KNOWS", accepts_alike_iff (wellIndexed_loopStore "KNOWS") (hasNode_person "KNOWS")
    List.mem_cons_self rfl⟩

/-- An expand step to `(x:Person:Admin)` accepts a person who is no admin; the scans do not. -/
theorem not_accepts_alike_admin :
    WellIndexed (loopEnv "KNOWS").rt.bin (fun _ => True) (fun _ => True) (loopStore "KNOWS") ∧
      HasNode (loopEnv "KNOWS").rt.bin (loopStore "KNOWS") sampleGraph person ∧
      ¬ (∀ l ∈ ["Person", "Admin"], hasLabel person l) ∧
      ¬ ScanAccepts (loopEnv "KNOWS") sampleGraph (loopStore "KNOWS") ["Person", "Admin"] person ∧
      ¬ IndexScanAccepts (loopEnv "KNOWS") sampleGraph (loopStore "KNOWS") ["Person", "Admin"] person
        [person.id] ∧
      ExpandAccepts (loopEnv "KNOWS") sampleGraph (loopStore "KNOWS") ["Person", "Admin"] person person.id
        .outgoing (loop "KNOWS") := by
  have hnot : ¬ ∀ l ∈ ["Person", "Admin"], hasLabel person l := by
    intro hall
    exact absurd (hasLabel_person.mp (hall "Admin" (by simp))) (by decide)
  have hstored := hasNode_person "KNOWS"
  refine ⟨wellIndexed_loopStore "KNOWS", hstored, hnot, ?_, ?_, ?_⟩
  · rw [scanAccepts_iff (wellIndexed_loopStore "KNOWS") hstored]
    exact hnot
  · rw [indexScanAccepts_iff hstored List.mem_cons_self]
    exact hnot
  · rw [expandAccepts_iff (wellIndexed_loopStore "KNOWS") hstored rfl]
    exact .inr ⟨"Person", List.mem_cons_self, hasLabel_person.mpr rfl⟩

end Synaptica.Exec
