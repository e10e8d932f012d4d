import Synaptica.Exec.Joining
import Synaptica.Lib.HashIndex

/-!
# The hash join

`exec_join` indexes the rows of the right side by their keys and probes the index with each row of the
left side. `nestedLoopJoin` says what this is for: of all pairs of rows, left rows first, those whose
shared columns have the same debug text.

A column of the left side is shared when it belongs to a variable and the right side has a column of its
name; of several columns of one name the right side is represented by the first.

* `execHashJoin` — the loops as they are written; `execHashJoin_eq_execJoin`.
* `execHashJoin_eq_nestedLoopJoin` — the hash join is the nested loop.
-/

namespace Synaptica.Exec

open Gql Storage

variable (env : Env)

/-! ## The loops -/

/-- `exec_join`, with its hash map from keys to row numbers of the right side. -/
def execHashJoin (left right : ResultSet) : ResultSet :=
  let shared := sharedColumns left.columns right.columns
  if shared.isEmpty then execCrossJoin left right
  else
    let keep := (List.range right.columns.length).filter fun ri => !(shared.any fun s => s.2 == ri)
    let hashMap := HashIndex.build (joinKey env (shared.map (·.2))) right.records
    .ofRows (left.columns ++ keep.filterMap (right.columns[·]?))
      (left.records.flatMap fun l =>
        (HashIndex.probe right.records hashMap (joinKey env (shared.map (·.1)) l)).map fun r =>
          l.values ++ keep.map fun ri => (r.values[ri]?).getD .null)

theorem execHashJoin_eq_execJoin (left right : ResultSet) :
    execHashJoin env left right = execJoin env left right := by
  simp only [execHashJoin, execJoin, HashIndex.probe_build]

/-! ## The nested loop -/

/-- The column of the right side that a column of the left side is compared with. -/
def partner (left right : List String) (i : Nat) : Option Nat :=
  match left[i]? with
  | some name => if JoinColumn name then right.idxOf? name else none
  | none => none

/-- All shared columns have equal debug texts. -/
def AgreeOnShared (left right : ResultSet) (l r : Record) : Prop :=
  ∀ i < left.columns.length, ∀ j ∈ partner left.columns right.columns i, textAt env l i = textAt env r j

instance (left right : ResultSet) (l r : Record) : Decidable (AgreeOnShared env left right l r) :=
  inferInstanceAs (Decidable (∀ i < _, _))

/-- The columns of the right side that no column of the left side is compared with. -/
def nonShared (left right : List String) : List Nat :=
  (List.range right.length).filter fun j => ¬ ∃ i < left.length, partner left right i = some j

def nestedLoopJoin (left right : ResultSet) : ResultSet :=
  let rest := nonShared left.columns right.columns
  .ofRows (left.columns ++ rest.map fun j => (right.columns[j]?).getD "")
    (((left.records ×ˢ right.records).filter fun p => AgreeOnShared env left right p.1 p.2).map fun p =>
      p.1.values ++ rest.map fun j => (p.2.values[j]?).getD .null)

/-! ## Their agreement -/

variable {env}

theorem partner_eq_some_iff {left right : List String} {i j : Nat} :
    partner left right i = some j ↔ (i, j) ∈ sharedColumns left right := by
  rw [mem_sharedColumns, partner]
  cases left[i]? with
  | none => simp
  | some name =>
    have hif : (if JoinColumn name then right.idxOf? name else none) = some j ↔
        right.idxOf? name = some j ∧ JoinColumn name := by
      split
      · next hjoin => exact (and_iff_left hjoin).symm
      · next hjoin => simp [hjoin]
    rw [hif]
    constructor
    · rintro ⟨hright, hjoin⟩
      exact ⟨name, rfl, hright, hjoin⟩
    · rintro ⟨_, heq, hright, hjoin⟩
      cases heq
      exact ⟨hright, hjoin⟩

/-- Rows meet when their shared columns agree. -/
theorem agreeOnShared_iff_meets {left right : ResultSet} {l r : Record} :
    AgreeOnShared env left right l r ↔ Meets env left right l r := by
  rw [meets_iff]
  constructor
  · rintro h ⟨i, j⟩ hs
    exact (h i (lt_of_mem_sharedColumns hs).1 j (partner_eq_some_iff.mpr hs)).symm
  · intro h i _ j hj
    exact (h (i, j) (partner_eq_some_iff.mp hj)).symm

/-- The columns of the right side that the join keeps. -/
theorem nonShared_eq (left right : List String) : nonShared left right =
    (List.range right.length).filter fun j => !((sharedColumns left right).any fun s => s.2 == j) := by
  apply List.filter_congr
  intro j _
  have hiff : (∃ i < left.length, partner left right i = some j) ↔
      ((sharedColumns left right).any fun s => s.2 == j) = true := by
    rw [List.any_eq_true]
    constructor
    · rintro ⟨i, -, hpartner⟩
      exact ⟨(i, j), partner_eq_some_iff.mp hpartner, beq_self_eq_true j⟩
    · rintro ⟨⟨i, j'⟩, hs, heq⟩
      cases eq_of_beq heq
      exact ⟨i, (lt_of_mem_sharedColumns hs).1, partner_eq_some_iff.mpr hs⟩
  rw [decide_not, Bool.eq_iff_iff.mpr (decide_eq_true_iff.trans hiff)]

/-- The names of the columns that are kept, looked up one by one. -/
theorem filterMap_nonShared (left right : List String) :
    (nonShared left right).filterMap (right[·]?) =
      (nonShared left right).map fun j => (right[j]?).getD "" := by
  rw [← List.filterMap_eq_map]
  apply List.filterMap_congr
  intro j hj
  have hlt : j < right.length := List.mem_range.mp (List.mem_of_mem_filter hj)
  rw [Function.comp_apply, List.getElem?_eq_getElem hlt, Option.getD_some]

/-- **The hash join is the nested loop.** For two result sets that share a column it returns the rows of the
nested loop under the condition that all shared columns have equal debug texts, in the same order and with
the same repetitions: the values of the left row, then those of the columns of the right side that are not
shared, under their names. -/
theorem execHashJoin_eq_nestedLoopJoin (left right : ResultSet)
    (hshared : ∃ name ∈ left.columns, name ∈ right.columns ∧ JoinColumn name) :
    execHashJoin env left right = nestedLoopJoin env left right := by
  have hnonempty : ¬ (sharedColumns left.columns right.columns).isEmpty := by
    obtain ⟨name, hleft, hright, hjoin⟩ := hshared
    obtain ⟨i, hi⟩ := List.mem_iff_getElem?.mp hleft
    obtain ⟨j, hj⟩ := Option.isSome_iff_exists.mp (List.isSome_idxOf?.mpr hright)
    intro hempty
    have hmem := mem_sharedColumns.mpr ⟨name, hi, hj, hjoin⟩
    rw [List.isEmpty_iff.mp hempty] at hmem
    cases hmem
  have hcolumns : (execJoin env left right).columns = (nestedLoopJoin env left right).columns := by
    simp only [execJoin, if_neg hnonempty, nestedLoopJoin, ResultSet.ofRows]
    rw [← nonShared_eq, filterMap_nonShared]
  have hrow : joinedRow left right = fun p => ⟨(nestedLoopJoin env left right).columns,
      p.1.values ++ (nonShared left.columns right.columns).map fun j => (p.2.values[j]?).getD .null⟩ := by
    funext p
    simp only [joinedRow, if_neg hnonempty, nestedLoopJoin, ResultSet.ofRows]
    rw [← nonShared_eq, filterMap_nonShared]
  have hrecords : (execJoin env left right).records = (nestedLoopJoin env left right).records := by
    rw [records_execJoin, hrow]
    simp only [← agreeOnShared_iff_meets, nestedLoopJoin, ResultSet.ofRows, List.map_map]
    rfl
  calc execHashJoin env left right
      = execJoin env left right := execHashJoin_eq_execJoin env left right
    _ = ⟨(execJoin env left right).columns, (execJoin env left right).records⟩ := rfl
    _ = ⟨(nestedLoopJoin env left right).columns, (nestedLoopJoin env left right).records⟩ := by
      rw [hcolumns, hrecords]

/-- Who knows whom, and the friends with the years of their photographs. -/
def friendRows : ResultSet :=
  .ofRows ["a.name", "b.name"] [[.string "Ann", .string "Bob"], [.string "Cid", .string "Bob"],
    [.string "Ann", .string "Eve"]]

def photoRows : ResultSet :=
  .ofRows ["b.name", "year"] [[.string "Eve", .integer 1999], [.string "Bob", .integer 2001],
    [.string "Bob", .integer 2002]]

theorem execHashJoin_friendRows :
    (∃ name ∈ friendRows.columns, name ∈ photoRows.columns ∧ JoinColumn name) ∧
      execHashJoin (sampleEnv sampleBincode) friendRows photoRows =
        nestedLoopJoin (sampleEnv sampleBincode) friendRows photoRows := by
  have hshared : ∃ name ∈ friendRows.columns, name ∈ photoRows.columns ∧ JoinColumn name :=
    ⟨"b.name", by decide, by decide, by decide +kernel⟩
  exact ⟨hshared, execHashJoin_eq_nestedLoopJoin friendRows photoRows hshared⟩

end Synaptica.Exec
