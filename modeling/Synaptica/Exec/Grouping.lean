import Synaptica.Exec.Sequencing
import Synaptica.Lib.Collect
import Synaptica.Lib.Enumerate
import Synaptica.Lib.Fallible

/-!
# Aggregation partitions the rows

`exec_project_with_aggregation` collects the rows by the text of their grouping values. The groups are the
rows of one tuple of texts each, as long as different tuples have different texts.
-/

namespace Synaptica.Exec

open Gql Storage

/-! ## Aggregate calls -/

mutual

/-- There is an aggregate call somewhere in the expression. -/
def hasAggregate : Expression → Bool
  | .aggregate .. => true
  | .propertyAccess object _ => hasAggregate object
  | .functionCall _ args => anyHasAggregate args
  | .binaryOp left _ right => hasAggregate left || hasAggregate right
  | .unaryOp _ operand => hasAggregate operand
  | .caseWhen operand whenClauses elseClause =>
    optionHasAggregate operand || clausesHaveAggregate whenClauses || optionHasAggregate elseClause
  | .list items => anyHasAggregate items
  | .map entries => entriesHaveAggregate entries
  | .isNull inner | .isNotNull inner => hasAggregate inner
  | .inList operand list => hasAggregate operand || hasAggregate list
  | .like operand pattern => hasAggregate operand || hasAggregate pattern
  | .typeCast expr _ => hasAggregate expr
  | _ => false

def anyHasAggregate : List Expression → Bool
  | [] => false
  | expr :: exprs => hasAggregate expr || anyHasAggregate exprs

def entriesHaveAggregate : List (String × Expression) → Bool
  | [] => false
  | (_, expr) :: entries => hasAggregate expr || entriesHaveAggregate entries

def clausesHaveAggregate : List (Expression × Expression) → Bool
  | [] => false
  | (whenExpr, thenExpr) :: clauses =>
    hasAggregate whenExpr || hasAggregate thenExpr || clausesHaveAggregate clauses

def optionHasAggregate : Option Expression → Bool
  | some expr => hasAggregate expr
  | none => false

end

mutual

/-- What `contains_aggregate` finds is there. -/
theorem hasAggregate_of_containsAggregate : (e : Expression) → containsAggregate e = true →
    hasAggregate e = true
  | .aggregate .., _ => rfl
  | .binaryOp left _ right, h => by
    rw [containsAggregate, Bool.or_eq_true] at h
    rw [hasAggregate, Bool.or_eq_true]
    exact h.imp (hasAggregate_of_containsAggregate left) (hasAggregate_of_containsAggregate right)
  | .unaryOp _ operand, h => hasAggregate_of_containsAggregate operand h
  | .functionCall _ args, h => anyHasAggregate_of_anyContains args h

theorem anyHasAggregate_of_anyContains : (es : List Expression) → anyContainsAggregate es = true →
    anyHasAggregate es = true
  | e :: es, h => by
    rw [anyContainsAggregate, Bool.or_eq_true] at h
    rw [anyHasAggregate, Bool.or_eq_true]
    exact h.imp (hasAggregate_of_containsAggregate e) (anyHasAggregate_of_anyContains es)

end

theorem anyContainsAggregate_of_mem {e : Expression} {es : List Expression} (he : e ∈ es)
    (h : containsAggregate e = true) : anyContainsAggregate es = true := by
  induction es with
  | nil => cases he
  | cons e' es ih =>
    rw [anyContainsAggregate, Bool.or_eq_true]
    rcases List.mem_cons.mp he with rfl | he
    · exact .inl h
    · exact .inr (ih he)

/-! ## Groups -/

variable (env : Env)

/-- The grouping items of a list: those without an aggregate call. -/
def groupingItems (expressions : List Expression) : List Expression :=
  expressions.filter fun e => !hasAggregate e

/-- The values of a row at the grouping items. -/
def groupingValues (expressions : List Expression) (row : List Value) : List Value :=
  (expressions.zip row).filterMap fun p => if hasAggregate p.1 then none else some p.2

/-- The debug texts of some values. -/
def texts (vals : List Value) : List String := vals.map fun v => v.debug env.debug

/-- The texts of the grouping values of a record. -/
def groupTexts (groupExprs : List Expression) (record : Record) : Except ExecError (List String) := do
  let vals ← evaluateAll env record groupExprs
  pure (texts env vals)

/-- The key of a tuple of texts: each is followed by the separator. -/
def keyText (tuple : List String) : String := String.join (tuple.map (· ++ "|"))

theorem groupKey_eq (groupExprs : List Expression) (record : Record) :
    groupKey env groupExprs record = keyText <$> groupTexts env groupExprs record := by
  unfold groupKey groupTexts
  cases evaluateAll env record groupExprs with
  | error e => rfl
  | ok vals =>
    show Except.ok _ = Except.ok _
    simp only [keyText, texts, List.map_map]
    rfl

/-- The rows are collected by the key of their grouping values. -/
theorem groupRecords_eq_ok {groupExprs : List Expression} {groups groups' : OrderedMap String (List Record)}
    {records : List Record} (h : groupRecords env groupExprs groups records = .ok groups')
    (tuple : Record → List String)
    (htuple : ∀ r ∈ records, ∀ t, groupTexts env groupExprs r = .ok t → tuple r = t) :
    (∀ r ∈ records, groupTexts env groupExprs r = .ok (tuple r)) ∧
      groups' = OrderedMap.collect (fun r => keyText (tuple r)) groups records := by
  induction records generalizing groups with
  | nil =>
    cases h
    exact ⟨fun r hr => absurd hr List.not_mem_nil, rfl⟩
  | cons r records ih =>
    obtain ⟨key, hkey, hrest⟩ := Except.bind_eq_ok.mp h
    rw [groupKey_eq] at hkey
    obtain ⟨t, ht, rfl⟩ := Except.map_eq_ok.mp hkey
    obtain rfl := htuple r List.mem_cons_self t ht
    obtain ⟨hall, hgroups⟩ := ih hrest fun r hr => htuple r (List.mem_cons_of_mem _ hr)
    exact ⟨List.forall_mem_cons.mpr ⟨ht, hall⟩, hgroups⟩

theorem groupRecords_of_forall {groupExprs : List Expression} {groups : OrderedMap String (List Record)}
    {records : List Record} {tuple : Record → List String}
    (hall : ∀ r ∈ records, groupTexts env groupExprs r = .ok (tuple r)) :
    groupRecords env groupExprs groups records =
      .ok (OrderedMap.collect (fun r => keyText (tuple r)) groups records) := by
  induction records generalizing groups with
  | nil => rfl
  | cons r records ih =>
    obtain ⟨hr, hall⟩ := List.forall_mem_cons.mp hall
    rw [groupRecords, groupKey_eq, hr]
    exact ih hall

/-- The values of a group's row at the items that are evaluated on a single record are those of its first
record. -/
theorem evaluateAll_filter_not {p : Expression → Bool} {first : Record} {records : List Record}
    (hp : ∀ e, p e = false → groupValue env first records e = evaluate env first e)
    {expressions : List Expression} {row : List Value}
    (h : expressions.mapM (groupValue env first records) = .ok row) :
    evaluateAll env first (expressions.filter fun e => !p e) =
      .ok ((expressions.zip row).filterMap fun q => if p q.1 then none else some q.2) := by
  induction expressions generalizing row with
  | nil =>
    cases h
    rfl
  | cons e expressions ih =>
    obtain ⟨v, vs, hv, hvs, rfl⟩ := List.mapM_cons_eq_ok.mp h
    have hrest := ih hvs
    cases hagg : p e with
    | true =>
      simp only [List.filter_cons, List.zip_cons_cons, List.filterMap_cons, hagg, Bool.not_true, if_true]
      exact hrest
    | false =>
      rw [hp e hagg] at hv
      simp only [List.filter_cons, List.zip_cons_cons, List.filterMap_cons, hagg, Bool.not_false, if_true]
      rw [evaluateAll, hv, Except.ok_bind, hrest]
      rfl

/-- The values of a group's row at the grouping items are those of its first record. -/
theorem evaluateAll_groupingItems {expressions : List Expression} {first : Record} {records : List Record}
    {row : List Value} (h : expressions.mapM (groupValue env first records) = .ok row) :
    evaluateAll env first (groupingItems expressions) = .ok (groupingValues expressions row) := by
  refine evaluateAll_filter_not env (fun e he => ?_) h
  cases e <;> first | rfl | cases he

/-- One output row: the values over the records of its group. -/
def IsGroupRow (expressions : List Expression) (group : String × List Record) (row : List Value) : Prop :=
  ∃ first rest, group.2 = first :: rest ∧
    expressions.mapM (groupValue env first (first :: rest)) = .ok row

/-- **What aggregation yields**: one row for each group of the records, collected by key. -/
theorem execProjectWithAggregation_eq_ok {input out : ResultSet} {expressions : List Expression}
    {aliases : List (Option String)}
    (hitems : ∀ e ∈ expressions, (∃ f d arg, e = .aggregate f d arg) ∨ hasAggregate e = false)
    (hgroup : groupingItems expressions ≠ [])
    (h : execProjectWithAggregation env input expressions aliases = .ok out) :
    ∃ (tuple : Record → List String) (rows : List (List Value)),
      (∀ r ∈ input.records, groupTexts env (groupingItems expressions) r = .ok (tuple r)) ∧
      List.Forall₂ (IsGroupRow env expressions)
        (OrderedMap.collect (fun r => keyText (tuple r)) ∅ input.records).toList rows ∧
      out = .ofRows (projectColumns expressions aliases) rows := by
  have hsame : expressions.filter (fun e => !containsAggregate e) = groupingItems expressions := by
    refine List.filter_congr fun e he => ?_
    rcases hitems e he with ⟨f, d, arg, rfl⟩ | hfree
    · rfl
    · have hfree' : containsAggregate e = false := by
        by_contra hc
        rw [hasAggregate_of_containsAggregate e (Bool.not_eq_false _ ▸ hc)] at hfree
        cases hfree
      rw [hfree, hfree']
  obtain ⟨groups, hgroups, hrest⟩ := Except.bind_eq_ok.mp h
  rw [hsame] at hgroups hrest
  have hnonempty : (groups.isEmpty && (groupingItems expressions).isEmpty) = false := by
    rw [List.isEmpty_eq_false_iff.mpr hgroup, Bool.and_false]
  rw [if_neg (by rw [hnonempty]; decide)] at hrest
  obtain ⟨rows, hrows, hout⟩ := Except.bind_eq_ok.mp hrest
  let tuple (r : Record) : List String := (groupTexts env (groupingItems expressions) r).toOption.getD []
  obtain ⟨hall, hcollect⟩ := groupRecords_eq_ok env hgroups tuple fun r _ t ht => by
    simp [tuple, ht, Except.toOption]
  refine ⟨tuple, rows, hall, ?_, (Except.ok.inj hout).symm⟩
  rw [← hcollect]
  obtain ⟨hlength, hpairs⟩ := List.forall₂_iff_zip.mp (List.mapM_eq_ok_iff_forall₂.mp hrows)
  refine List.forall₂_iff_zip.mpr ⟨hlength, fun {group row} hmem => ?_⟩
  have hrow := hpairs hmem
  have hmem := (List.of_mem_zip hmem).1
  rw [hcollect, OrderedMap.mem_toList_collect] at hmem
  obtain ⟨key, records⟩ := group
  cases records with
  | nil => exact absurd rfl hmem.2
  | cons first rest => exact ⟨first, rest, rfl, hrow⟩

/-- The texts that identify an output row: those of its grouping values. -/
def rowTexts (expressions : List Expression) (row : Record) : List String :=
  texts env (groupingValues expressions row.values)

/-- A group is all input rows of one tuple, and its row carries that tuple and its size. -/
theorem IsGroupRow.spec {expressions : List Expression}
    (hitems : ∀ e ∈ expressions, (∃ f d arg, e = .aggregate f d arg) ∨ hasAggregate e = false)
    {records : List Record} {tuple : Record → List String}
    (hall : ∀ r ∈ records, groupTexts env (groupingItems expressions) r = .ok (tuple r))
    (hkey : ∀ r ∈ records, ∀ s ∈ records, keyText (tuple r) = keyText (tuple s) → tuple r = tuple s)
    {group : String × List Record} {row : List Value}
    (hmem : group ∈ (OrderedMap.collect (fun r => keyText (tuple r)) ∅ records).toList)
    (h : IsGroupRow env expressions group row) :
    (∃ r ∈ records, tuple r = texts env (groupingValues expressions row)) ∧
      group.1 = keyText (texts env (groupingValues expressions row)) ∧
      ∀ (j : Nat) distinct, expressions[j]? = some (.aggregate .count distinct none) →
        row[j]? = some (.integer (Int64.ofNat
          ((records.map tuple).count (texts env (groupingValues expressions row))))) := by
  obtain ⟨hrecords, -⟩ := OrderedMap.mem_toList_collect.mp hmem
  obtain ⟨first, rest, hgroup, hrow⟩ := h
  obtain ⟨hfirst, hfirstKey⟩ := OrderedMap.mem_ofKey.mp (hrecords ▸ hgroup ▸ List.mem_cons_self)
  have htuple : tuple first = texts env (groupingValues expressions row) := by
    have htexts := hall first hfirst
    rw [groupTexts, evaluateAll_groupingItems env hrow] at htexts
    exact (Except.ok.inj htexts).symm
  rw [← htuple]
  refine ⟨⟨first, hfirst, rfl⟩, hfirstKey.symm, fun j distinct hj => ?_⟩
  have hsize : (first :: rest).length = (records.map tuple).count (tuple first) := by
    rw [← hgroup, hrecords, List.count_eq_countP, List.countP_map, OrderedMap.ofKey,
      ← List.countP_eq_length_filter]
    refine List.countP_congr fun s hs => ?_
    simp only [decide_eq_true_eq, Function.comp_apply, beq_iff_eq, ← hfirstKey]
    constructor
    · exact hkey s hs first hfirst
    · exact congrArg keyText
  obtain ⟨v, hv, hvalue⟩ := List.getElem?_of_mapM_eq_ok hrow hj
  rw [hv, ← Except.ok.inj hvalue, hsize]

/-- **Aggregation partitions the input.** There is one output row for each tuple of grouping texts that
occurs, `COUNT(*)` in it is the number of input rows with that tuple, and these numbers add up to the number
of input rows. -/
theorem aggregation_partitions {input out : ResultSet} {expressions : List Expression}
    {aliases : List (Option String)}
    (hitems : ∀ e ∈ expressions, (∃ f d arg, e = .aggregate f d arg) ∨ hasAggregate e = false)
    (hgroup : groupingItems expressions ≠ [])
    (hdecode : ∀ r ∈ input.records, ∀ s ∈ input.records, ∀ t u,
      groupTexts env (groupingItems expressions) r = .ok t →
      groupTexts env (groupingItems expressions) s = .ok u → keyText t = keyText u → t = u)
    (h : execProjectWithAggregation env input expressions aliases = .ok out) :
    ∃ tuples, input.records.mapM (groupTexts env (groupingItems expressions)) = .ok tuples ∧
      (out.records.map (rowTexts env expressions)).Nodup ∧
      (∀ t, t ∈ out.records.map (rowTexts env expressions) ↔ t ∈ tuples) ∧
      (∀ row ∈ out.records, ∀ (j : Nat) distinct, expressions[j]? = some (.aggregate .count distinct none) →
        row.values[j]? = some (.integer (Int64.ofNat (tuples.count (rowTexts env expressions row))))) ∧
      (out.records.map fun row => tuples.count (rowTexts env expressions row)).sum =
        input.records.length ∧
      (input.records.length < 2 ^ 63 → ∀ row ∈ out.records,
        (Int64.ofNat (tuples.count (rowTexts env expressions row))).toInt =
          tuples.count (rowTexts env expressions row)) := by
  obtain ⟨tuple, rows, hall, hrows, rfl⟩ := execProjectWithAggregation_eq_ok env hitems hgroup h
  have htuples : input.records.mapM (groupTexts env (groupingItems expressions)) =
      .ok (input.records.map tuple) := by
    rw [List.mapM_congr_left (g := fun r => pure (tuple r)) hall]
    exact List.mapM_pure
  -- on the input, a key stands for one tuple
  have hkey : ∀ r ∈ input.records, ∀ s ∈ input.records, keyText (tuple r) = keyText (tuple s) →
      tuple r = tuple s :=
    fun r hr s hs => hdecode r hr s hs _ _ (hall r hr) (hall s hs)
  let rowTuple (row : List Value) : List String := texts env (groupingValues expressions row)
  have hspec := List.forall₂_iff_zip.mpr ⟨hrows.length_eq, fun {group row} hmem =>
    IsGroupRow.spec env hitems hall hkey (List.of_mem_zip hmem).1 (List.forall₂_zip hrows hmem)⟩
  have hrecords : ∀ {β : Type} (f : List Value → β), ((ResultSet.ofRows
      (projectColumns expressions aliases) rows).records.map fun row => f row.values) = rows.map f := by
    intro β f
    simp [ResultSet.ofRows]
  have hnodup : (rows.map rowTuple).Nodup := by
    have hkeys : (OrderedMap.collect (fun r => keyText (tuple r)) ∅ input.records).toList.map (·.1) =
        rows.map fun row => keyText (rowTuple row) :=
      List.map_eq_map_of_forall₂ (hspec.imp fun group row h => h.2.1)
    have h := OrderedMap.nodup_keys_toList (OrderedMap.collect (fun r => keyText (tuple r)) ∅ input.records)
    rw [hkeys, ← Function.comp_def keyText rowTuple, ← List.map_map] at h
    exact h.of_map
  have hmem : ∀ t, t ∈ rows.map rowTuple ↔ t ∈ input.records.map tuple := by
    intro t
    rw [List.mem_map, List.mem_map]
    constructor
    · rintro ⟨row, hrow, rfl⟩
      obtain ⟨group, -, hgroup, -⟩ := hspec.flip.exists_of_mem hrow
      exact hgroup
    · rintro ⟨r, hr, rfl⟩
      -- the group of that record
      have hgroup : (keyText (tuple r), OrderedMap.ofKey (fun r => keyText (tuple r)) input.records
          (keyText (tuple r))) ∈ (OrderedMap.collect (fun r => keyText (tuple r)) ∅ input.records).toList :=
        OrderedMap.mem_toList_collect.mpr
          ⟨rfl, List.ne_nil_of_mem (OrderedMap.mem_ofKey.mpr ⟨hr, rfl⟩)⟩
      obtain ⟨row, hrow, ⟨s, hs, hst⟩, hst', -⟩ := hspec.exists_of_mem hgroup
      refine ⟨row, hrow, ?_⟩
      rw [← hst] at hst'
      show texts env (groupingValues expressions row) = tuple r
      rw [← hst, hkey s hs r hr hst'.symm]
  have hperm : (rows.map rowTuple).Perm (input.records.map tuple).dedup :=
    (List.perm_ext_iff_of_nodup hnodup (List.nodup_dedup _)).mpr fun t => by
      rw [List.mem_dedup, hmem]
  refine ⟨input.records.map tuple, htuples, ?_, ?_, ?_, ?_, ?_⟩
  · show (List.map (fun row : Record => rowTuple row.values) _).Nodup
    rw [hrecords rowTuple]
    exact hnodup
  · intro t
    show t ∈ List.map (fun row : Record => rowTuple row.values) _ ↔ _
    rw [hrecords rowTuple]
    exact hmem t
  · intro row hrow j distinct hj
    obtain ⟨values, hvalues, rfl⟩ := List.mem_map.mp hrow
    obtain ⟨group, -, -, -, hcount⟩ := hspec.flip.exists_of_mem hvalues
    exact hcount j distinct hj
  · show (List.map (fun row : Record => (input.records.map tuple).count (rowTuple row.values)) _).sum = _
    rw [hrecords fun values => (input.records.map tuple).count (rowTuple values),
      ← Function.comp_def (fun t => (input.records.map tuple).count t) rowTuple, ← List.map_map,
      (hperm.map _).sum_eq]
    have htotal := List.sum_map_count_dedup_eq_length (input.records.map tuple)
    have hbeq : (instBEqOfDecidableEq : BEq (List String)) = List.instBEq := lawful_beq_subsingleton _ _
    rw [List.length_map, hbeq] at htotal
    exact htotal
  · intro hlt row _
    have hle := List.count_le_length (a := rowTexts env expressions row) (l := input.records.map tuple)
    rw [List.length_map] at hle
    exact Int64.toInt_ofNat_of_lt (hle.trans_lt hlt)

/-- `RETURN x, COUNT(*)` on the rows 1, 2 and 1. -/
def countedRows : ResultSet := .ofRows ["x"] [[.integer 1], [.integer 2], [.integer 1]]

def countedItems : List Expression := [.identifier "x", .aggregate .count false none]

/-- There are two groups, which hold three rows. -/
theorem aggregation_partitions_sample :
    ∃ tuples : List (List String), ([[.integer 1, .integer 2], [.integer 2, .integer 1]].map fun row =>
      tuples.count (rowTexts (sampleEnv sampleBincode) countedItems ⟨["x", "col_1"], row⟩)).sum = 3 := by
  have hrun : execProjectWithAggregation (sampleEnv sampleBincode) countedRows countedItems [none, none] =
      .ok (.ofRows ["x", "col_1"] [[.integer 1, .integer 2], [.integer 2, .integer 1]]) := by
    decide
  have hitems : groupingItems countedItems = [.identifier "x"] := rfl
  have hdecode : ∀ r ∈ countedRows.records, ∀ s ∈ countedRows.records, ∀ t u,
      groupTexts (sampleEnv sampleBincode) [.identifier "x"] r = .ok t →
      groupTexts (sampleEnv sampleBincode) [.identifier "x"] s = .ok u → keyText t = keyText u → t = u := by
    intro r hr s hs t u ht hu hkey
    simp only [countedRows, ResultSet.ofRows, List.map_cons, List.map_nil, List.mem_cons,
      List.not_mem_nil, or_false] at hr hs
    rcases hr with rfl | rfl | rfl <;> rcases hs with rfl | rfl | rfl <;> cases ht <;> cases hu <;>
      first | rfl | (revert hkey; decide)
  have hbare : ∀ e ∈ countedItems, (∃ f d arg, e = .aggregate f d arg) ∨ hasAggregate e = false := by
    intro e he
    simp only [countedItems, List.mem_cons, List.not_mem_nil, or_false] at he
    rcases he with rfl | rfl
    · exact .inr rfl
    · exact .inl ⟨_, _, _, rfl⟩
  obtain ⟨tuples, -, -, -, -, hsum, -⟩ := aggregation_partitions (sampleEnv sampleBincode) hbare
    (by rw [hitems]; decide) (hitems ▸ hdecode) hrun
  exact ⟨tuples, hsum⟩

end Synaptica.Exec
