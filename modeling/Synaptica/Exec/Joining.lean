import Synaptica.Core.Text
import Synaptica.Exec.Reading

/-!
# Joining two result sets

`exec_join` looks for columns that both sides have and that belong to a variable. Rows meet when the
debug texts of these columns are the same; without such columns every row meets every other one. The
rows of the join are the pairs of rows that meet, in the order of the nested loops.
-/

namespace Synaptica.Exec

open Gql Storage

/-! ## Keys -/

/-- The debug text of the value at a position. -/
def textAt (env : Env) (r : Record) (i : Nat) : String := ((r.values[i]?).getD .null).debug env.debug

theorem joinKey_eq_iff {env : Env} {is js : List Nat} {l r : Record} :
    joinKey env is r = joinKey env js l ↔ is.map (textAt env r) = js.map (textAt env l) := by
  have hkey : ∀ is r, joinKey env is r = (is.map (textAt env r)).flatMap fun s => utf8 s ++ [0xFF] := by
    intro is r
    rw [List.flatMap_map]
    rfl
  rw [hkey, hkey]
  exact flatMap_closed_injective.eq_iff

/-- Two rows that a join puts together: without shared columns any two, otherwise those with equal keys. -/
def Meets (env : Env) (left right : ResultSet) (l r : Record) : Prop :=
  let shared := sharedColumns left.columns right.columns
  shared.isEmpty ∨ joinKey env (shared.map (·.2)) r = joinKey env (shared.map (·.1)) l

instance (env : Env) (left right : ResultSet) (l r : Record) : Decidable (Meets env left right l r) :=
  inferInstanceAs (Decidable (_ ∨ _))

/-- Rows meet when their texts agree at each pair of positions of a shared column. -/
theorem meets_iff {env : Env} {left right : ResultSet} {l r : Record} : Meets env left right l r ↔
    ∀ s ∈ sharedColumns left.columns right.columns, textAt env r s.2 = textAt env l s.1 := by
  have hempty : (sharedColumns left.columns right.columns).isEmpty →
      ∀ s ∈ sharedColumns left.columns right.columns, textAt env r s.2 = textAt env l s.1 := by
    intro h s hs
    rw [List.isEmpty_iff.mp h] at hs
    cases hs
  rw [Meets, joinKey_eq_iff, List.map_map, List.map_map, List.map_inj_left]
  exact or_iff_right_of_imp hempty

/-- A column that a join compares. -/
def JoinColumn (name : String) : Prop := ¬ DotFree name ∧ ¬ name.startsWith "__"

instance (name : String) : Decidable (JoinColumn name) := inferInstanceAs (Decidable (_ ∧ _))

/-- The position of a shared column on both sides. -/
theorem mem_sharedColumns {left right : List String} {i j : Nat} :
    (i, j) ∈ sharedColumns left right ↔ ∃ name, left[i]? = some name ∧ right.idxOf? name = some j ∧
      ¬ DotFree name ∧ ¬ name.startsWith "__" := by
  rw [sharedColumns, List.mem_filterMap]
  constructor
  · rintro ⟨⟨name, k⟩, hc, hs⟩
    split at hs
    · cases hs
    · rename_i hkept
      obtain ⟨m, hm, hpair⟩ := Option.map_eq_some_iff.mp hs
      cases hpair
      refine ⟨name, List.mem_zipIdx_iff_getElem?.mp hc, hm, ?_⟩
      simpa [DotFree] using hkept
  · rintro ⟨name, hleft, hright, hdot, hhidden⟩
    refine ⟨(name, i), List.mem_zipIdx_iff_getElem?.mpr hleft, ?_⟩
    have hkept : (!name.contains '.' || name.startsWith "__") = false := by
      rw [Bool.or_eq_false_iff, Bool.not_eq_false']
      refine ⟨?_, Bool.not_eq_true _ ▸ hhidden⟩
      simpa [DotFree] using hdot
    rw [hkept, hright]
    rfl

/-! ## Rows -/

/-- A row that answers as the left one, and as the right one where the left one has no such column. -/
def Combines (l r o : Record) : Prop := ∀ name, o.get name = (l.get name).or (r.get name)

/-- Picking positions in order, among them every position of a name, keeps what the name answers. -/
theorem get_picked {columns : List String} {values : List Value} {name : String} {keep : List Nat}
    (hwidth : values.length = columns.length) (hsorted : keep.Pairwise (· < ·))
    (hlt : ∀ i ∈ keep, i < columns.length) (hkeep : ∀ i, columns[i]? = some name → i ∈ keep) :
    (⟨keep.filterMap (columns[·]?), keep.map fun i => (values[i]?).getD .null⟩ : Record).get name =
      (⟨columns, values⟩ : Record).get name := by
  have hlength : (keep.map fun i => (values[i]?).getD .null).length =
      (keep.filterMap (columns[·]?)).length := by
    rw [List.length_map, List.filterMap_length_eq_length.mpr]
    intro i hi
    rw [List.getElem?_eq_getElem (hlt i hi)]
    rfl
  show _ = (columns.idxOf? name).bind fun i => values[i]?
  cases hfirst : columns.idxOf? name with
  | none =>
    rw [Option.bind_none, Record.get_eq_none_iff hlength]
    intro hmem
    obtain ⟨i, -, hi⟩ := List.mem_filterMap.mp hmem
    exact List.idxOf?_eq_none_iff.mp hfirst (List.mem_of_getElem? hi)
  | some i₀ =>
    obtain ⟨hlt₀, hname, hbefore⟩ := List.idxOf?_eq_some_iff.mp hfirst
    have hmem : i₀ ∈ keep := hkeep i₀ (by rw [List.getElem?_eq_getElem hlt₀, hname])
    clear hkeep hlength
    rw [Option.bind_some]
    induction keep with
    | nil => cases hmem
    | cons i keep ih =>
      have hi := List.getElem?_eq_getElem (hlt i List.mem_cons_self)
      rw [List.filterMap_cons_some hi, List.map_cons, Record.get_cons]
      obtain ⟨hhead, htail⟩ := List.pairwise_cons.mp hsorted
      split
      · rename_i hsame
        -- the first picked position with the name is its first position
        have heq : i = i₀ := by
          rcases List.mem_cons.mp hmem with heq | hrest
          · exact heq.symm
          · exact absurd (by simpa using hsame) (hbefore i (hhead i₀ hrest))
        rw [heq, List.getElem?_eq_getElem (hwidth ▸ hlt₀), Option.getD_some]
      · rename_i hne
        refine ih htail (fun j hj => hlt j (List.mem_cons_of_mem _ hj)) ?_
        rcases List.mem_cons.mp hmem with rfl | hrest
        · exact absurd hname hne
        · exact hrest


variable {env : Env}

/-- The row of a pair of rows: of the right one, what no shared column is left out of. -/
def joinedRow (left right : ResultSet) (p : Record × Record) : Record :=
  let shared := sharedColumns left.columns right.columns
  if shared.isEmpty then ⟨left.columns ++ right.columns, p.1.values ++ p.2.values⟩
  else
    let keep := (List.range right.columns.length).filter fun ri => !(shared.any fun s => s.2 == ri)
    ⟨left.columns ++ keep.filterMap (right.columns[·]?),
      p.1.values ++ keep.map fun ri => (p.2.values[ri]?).getD .null⟩

/-- The rows of a join are those of the nested loops that meet. -/
theorem records_execJoin (left right : ResultSet) : (execJoin env left right).records =
    ((left.records ×ˢ right.records).filter fun p => Meets env left right p.1 p.2).map
      (joinedRow left right) := by
  have hloops : (left.records ×ˢ right.records).filter (fun p => Meets env left right p.1 p.2) =
      left.records.flatMap fun l => (right.records.filter fun r => Meets env left right l r).map (l, ·) := by
    show (left.records.flatMap fun l => right.records.map (l, ·)).filter _ = _
    rw [List.filter_flatMap]
    simp only [List.filter_map]
    rfl
  rw [hloops, List.map_flatMap, execJoin]
  simp only [List.map_map]
  by_cases hempty : (sharedColumns left.columns right.columns).isEmpty
  · simp [hempty, Meets, joinedRow, execCrossJoin, ResultSet.ofRows, List.map_flatMap, Function.comp_def]
  · simp [hempty, Meets, joinedRow, ResultSet.ofRows, List.map_flatMap, Function.comp_def, beq_eq_decide]

/-- The columns that are left out are columns of the left side too. -/
theorem combines_joinedRow {left right : ResultSet} {l r : Record} (hl : l.columns = left.columns)
    (hr : r.columns = right.columns) (hlwidth : l.values.length = left.columns.length)
    (hrwidth : r.values.length = right.columns.length) : Combines l r (joinedRow left right (l, r)) := by
  intro name
  have hleft : (⟨left.columns, l.values⟩ : Record).get name = l.get name := by rw [← hl]
  have hright : (⟨right.columns, r.values⟩ : Record).get name = r.get name := by rw [← hr]
  unfold joinedRow
  dsimp only
  split
  · rw [Record.get_append hlwidth, hleft, hright]
  · rw [Record.get_append hlwidth, hleft]
    by_cases hmem : name ∈ left.columns
    · have hsome : l.get name ≠ none := by
        rw [← hleft]
        exact fun h => (Record.get_eq_none_iff hlwidth).mp h hmem
      obtain ⟨x, hx⟩ := Option.ne_none_iff_exists'.mp hsome
      rw [hx, Option.some_or, Option.some_or]
    · have hnone : l.get name = none := by
        rw [← hleft]
        exact (Record.get_eq_none_iff hlwidth).mpr hmem
      rw [hnone, Option.none_or, Option.none_or, ← hright]
      apply get_picked hrwidth (List.pairwise_lt_range.filter _)
      · exact fun i hi => List.mem_range.mp (List.mem_of_mem_filter hi)
      · intro i hi
        refine List.mem_filter.mpr ⟨List.mem_range.mpr (List.getElem?_eq_some_iff.mp hi).1, ?_⟩
        simp only [Bool.not_eq_true', List.any_eq_false, beq_iff_eq]
        rintro ⟨j, k⟩ hs rfl
        obtain ⟨name', hj, hk, -⟩ := mem_sharedColumns.mp hs
        obtain ⟨hlt, hname, -⟩ := List.idxOf?_eq_some_iff.mp hk
        rw [List.getElem?_eq_getElem hlt, hname] at hi
        cases hi
        exact hmem (List.mem_of_getElem? hj)

/-- **The rows of a join** combine the pairs of rows that meet, each pair once. -/
theorem forall₂_execJoin {left right : ResultSet} (hleft : left.Rectangular) (hright : right.Rectangular) :
    List.Forall₂ (fun p o => Combines p.1 p.2 o)
      ((left.records ×ˢ right.records).filter fun p => Meets env left right p.1 p.2)
      (execJoin env left right).records := by
  rw [records_execJoin, List.forall₂_map_right_iff, List.forall₂_same]
  rintro ⟨l, r⟩ hp
  obtain ⟨hl, hr⟩ := List.mem_product.mp (List.mem_of_mem_filter hp)
  exact combines_joinedRow (hleft l hl).1 (hright r hr).1 (hleft l hl).2 (hright r hr).2

/-- Every joined row comes from rows that meet. -/
theorem exists_of_mem_execJoin {left right : ResultSet} (hleft : left.Rectangular)
    (hright : right.Rectangular) {o : Record} (ho : o ∈ (execJoin env left right).records) :
    ∃ l ∈ left.records, ∃ r ∈ right.records, Meets env left right l r ∧ Combines l r o := by
  obtain ⟨⟨l, r⟩, hp, hcombines⟩ := (forall₂_execJoin hleft hright).flip.exists_of_mem ho
  obtain ⟨hmem, hmeets⟩ := List.mem_filter.mp hp
  obtain ⟨hl, hr⟩ := List.mem_product.mp hmem
  exact ⟨l, hl, r, hr, of_decide_eq_true hmeets, hcombines⟩

end Synaptica.Exec
