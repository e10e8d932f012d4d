import Synaptica.Exec.Sequencing
import Synaptica.Lib.Fallible

/-!
# Rows as wide as their columns

Columns are put together from the property keys that happen to occur, from aliases and from hidden
columns, and rows are lists of values that go with them by position. Every operator keeps the two in
step: whatever a plan answers is `Rectangular`, and then every position at which an operator reads or
writes a row is inside the row.
-/

namespace Synaptica.Exec

open Gql Storage

/-- Every row has the columns of the set, and one value for each of them. -/
def ResultSet.Rectangular (rs : ResultSet) : Prop :=
  ∀ r ∈ rs.records, r.columns = rs.columns ∧ r.values.length = rs.columns.length

namespace ResultSet

theorem rectangular_ofRows {columns : List String} {rows : List (List Value)}
    (h : ∀ row ∈ rows, row.length = columns.length) : (ofRows columns rows).Rectangular := by
  intro r hr
  obtain ⟨row, hrow, rfl⟩ := List.mem_map.mp hr
  exact ⟨rfl, h row hrow⟩

/-- Some of the rows, in some order, below the same columns. -/
theorem Rectangular.ofRows_values {rs : ResultSet} (h : rs.Rectangular) {records : List Record}
    (hsub : ∀ r ∈ records, r ∈ rs.records) :
    (ofRows rs.columns (records.map (·.values))).Rectangular := by
  apply rectangular_ofRows
  intro row hrow
  obtain ⟨r, hr, rfl⟩ := List.mem_map.mp hrow
  exact (h r (hsub r hr)).2

end ResultSet

open ResultSet

variable (env : Env) (graphId : GraphId)

/-! ## Scan and expand -/

theorem rectangular_nodeResultSet (keys : List String) (var : Option String) (nodes : List Node) :
    (nodeResultSet keys var nodes).Rectangular := by
  apply rectangular_ofRows
  intro row hrow
  obtain ⟨node, -, rfl⟩ := List.mem_map.mp hrow
  cases var <;> simp [nodeRow, nodeColumns, variableColumns]

/-- An expanded row is as wide as the source row and the columns that were added. -/
theorem length_expandValues (nodeIdCol : Option Nat) (edgeKeys targetKeys : List String)
    (edgeVar targetVar : Option String) (row : ExpandRow) :
    (expandValues nodeIdCol edgeKeys targetKeys edgeVar targetVar row).length =
      row.sourceValues.length + (variableColumns edgeKeys edgeVar).length +
        (variableColumns targetKeys targetVar).length := by
  cases nodeIdCol <;> cases edgeVar <;> cases targetVar <;>
    simp [expandValues, variableColumns] <;> omega

theorem rectangular_expandResultSet {columns edgeKeys targetKeys : List String}
    {edgeVar targetVar : Option String} {rows : List ExpandRow}
    (h : ∀ row ∈ rows, row.sourceValues.length = columns.length) :
    (expandResultSet columns edgeKeys targetKeys edgeVar targetVar rows).Rectangular := by
  apply rectangular_ofRows
  intro values hvalues
  obtain ⟨row, hrow, rfl⟩ := List.mem_map.mp hvalues
  rw [length_expandValues, h row hrow, List.length_append, List.length_append]

/-! ## Filter, project and aggregate -/

theorem mem_of_mem_filterRecords {predicate : Expression} {records kept : List Record}
    (h : filterRecords env predicate records = .ok kept) : ∀ r ∈ kept, r ∈ records := by
  induction records generalizing kept with
  | nil =>
    cases h
    simp
  | cons record records ih =>
    simp only [filterRecords, Except.bind_eq_ok, Except.pure_eq_ok] at h
    obtain ⟨val, -, rest, hrest, rfl⟩ := h
    intro r hr
    split at hr
    · rcases List.mem_cons.mp hr with rfl | hr
      · exact List.mem_cons_self
      · exact List.mem_cons_of_mem _ (ih hrest r hr)
    · exact List.mem_cons_of_mem _ (ih hrest r hr)

theorem rectangular_execFilter {input rs : ResultSet} {predicate : Expression}
    (hinput : input.Rectangular) (h : execFilter env input predicate = .ok rs) : rs.Rectangular := by
  simp only [execFilter, Except.bind_eq_ok, Except.pure_eq_ok] at h
  obtain ⟨kept, hkept, rfl⟩ := h
  exact hinput.ofRows_values (mem_of_mem_filterRecords env hkept)

theorem length_of_evaluateAll {context : Record} {exprs : List Expression} {vs : List Value}
    (h : evaluateAll env context exprs = .ok vs) : vs.length = exprs.length := by
  induction exprs generalizing vs with
  | nil =>
    cases h
    rfl
  | cons expr exprs ih =>
    simp only [evaluateAll, Except.bind_eq_ok, Except.pure_eq_ok] at h
    obtain ⟨v, -, rest, hrest, rfl⟩ := h
    rw [List.length_cons, List.length_cons, ih hrest]

@[simp] theorem length_projectColumns (expressions : List Expression) (aliases : List (Option String)) :
    (projectColumns expressions aliases).length = expressions.length := by
  simp [projectColumns]

theorem length_of_mem_projectRows {expressions : List Expression} {internal : List (Option Nat)}
    {records : List Record} {rows : List (List Value)}
    (h : projectRows env expressions internal records = .ok rows) :
    ∀ row ∈ rows, row.length = expressions.length + internal.length := by
  induction records generalizing rows with
  | nil =>
    cases h
    simp
  | cons record records ih =>
    simp only [projectRows, projectRow, Except.bind_eq_ok, Except.pure_eq_ok] at h
    obtain ⟨first, ⟨vs, hvs, rfl⟩, rest, hrest, rfl⟩ := h
    intro row hrow
    rcases List.mem_cons.mp hrow with rfl | hrow
    · simp [length_of_evaluateAll env hvs]
    · exact ih hrest row hrow

/-- Every group has a first record. -/
theorem ne_nil_of_groupRecords {groupExprs : List Expression}
    {groups groups' : OrderedMap String (List Record)} {records : List Record}
    (h : groupRecords env groupExprs groups records = .ok groups')
    (hgroups : ∀ (k : String) (l : List Record), groups[k]? = some l → l ≠ []) :
    ∀ (k : String) (l : List Record), groups'[k]? = some l → l ≠ [] := by
  induction records generalizing groups with
  | nil =>
    cases h
    exact hgroups
  | cons record records ih =>
    simp only [groupRecords, Except.bind_eq_ok] at h
    obtain ⟨key, -, hrest⟩ := h
    refine ih hrest fun k l hl => ?_
    rw [OrderedMap.getElem?_insert] at hl
    split at hl
    · cases hl
      simp
    · exact hgroups k l hl

theorem rectangular_execProjectWithAggregation {input rs : ResultSet} {expressions : List Expression}
    {aliases : List (Option String)}
    (h : execProjectWithAggregation env input expressions aliases = .ok rs) : rs.Rectangular := by
  simp only [execProjectWithAggregation, Except.bind_eq_ok] at h
  obtain ⟨groups, hgroups, h⟩ := h
  split at h
  · cases h
    apply rectangular_ofRows
    simp
  · simp only [Except.bind_eq_ok, Except.pure_eq_ok] at h
    obtain ⟨rows, hrows, rfl⟩ := h
    apply rectangular_ofRows
    intro row hrow
    obtain ⟨⟨key, members⟩, hmem, hrow⟩ := List.exists_of_mem_mapM hrows hrow
    have hne := ne_nil_of_groupRecords env hgroups (by simp) key members
      ((OrderedMap.mem_toList groups).mp hmem)
    cases members with
    | nil => exact absurd rfl hne
    | cons first rest => rw [List.length_of_mapM_eq_ok hrow, length_projectColumns]

theorem rectangular_execProject {input rs : ResultSet} {expressions : List Expression}
    {aliases : List (Option String)} (h : execProject env input expressions aliases = .ok rs) :
    rs.Rectangular := by
  unfold execProject at h
  split at h
  · exact rectangular_execProjectWithAggregation env h
  · dsimp only at h
    split at h
    · rename_i hempty
      simp only [Except.bind_eq_ok, Except.pure_eq_ok] at h
      obtain ⟨vs, hvs, rfl⟩ := h
      apply rectangular_ofRows
      -- a set without columns has no internal columns either
      have hcolumns : input.columns = [] := by simpa using (Bool.and_eq_true_iff.mp hempty).2
      simp [length_of_evaluateAll env hvs, internalColumns, hcolumns]
    · simp only [Except.bind_eq_ok, Except.pure_eq_ok] at h
      obtain ⟨rows, hrows, rfl⟩ := h
      apply rectangular_ofRows
      intro row hrow
      rw [length_of_mem_projectRows env hrows row hrow]
      simp

/-! ## Limit, sort, join and distinct -/

theorem rectangular_execLimit {input : ResultSet} (hinput : input.Rectangular)
    (count offset : Option UInt64) : (execLimit input count offset).Rectangular := by
  unfold execLimit
  apply hinput.ofRows_values
  intro r hr
  cases count with
  | none => exact List.mem_of_mem_drop hr
  | some c => exact List.mem_of_mem_drop (List.mem_of_mem_take hr)

theorem mem_insertTail {keys : List (Expression × SortDirection)} {record : Record}
    {err : Option ExecError} {sorted : List Record} :
    ∀ r ∈ (insertTail env keys record err sorted).2, r = record ∨ r ∈ sorted := by
  induction sorted generalizing err with
  | nil => cases err <;> simp [insertTail]
  | cons last sorted ih =>
    cases err with
    | some e => simp [insertTail]
    | none =>
      rw [insertTail]
      split
      · simp
      · intro r hr
        rcases List.mem_cons.mp hr with rfl | hr
        · exact .inr List.mem_cons_self
        · exact (ih r hr).imp_right (List.mem_cons_of_mem _)
      · simp

theorem mem_of_mem_sortRecords {keys : List (Expression × SortDirection)} {records : List Record} :
    ∀ r ∈ (sortRecords env keys records).2, r ∈ records := by
  have hfold : ∀ (records : List Record) (acc : Option ExecError × List Record),
      ∀ r ∈ (records.foldl (fun acc r => insertTail env keys r acc.1 acc.2) acc).2,
        r ∈ records ∨ r ∈ acc.2 := by
    intro records
    induction records with
    | nil => exact fun acc r hr => .inr hr
    | cons record records ih =>
      intro acc r hr
      rcases ih _ r hr with hr | hr
      · exact .inl (List.mem_cons_of_mem _ hr)
      · rcases mem_insertTail env r hr with rfl | hr
        · exact .inl List.mem_cons_self
        · exact .inr hr
  intro r hr
  rcases hfold records (none, []) r (List.mem_reverse.mp hr) with hr | hr
  · exact hr
  · cases hr

theorem rectangular_execSort {input rs : ResultSet} {orderBy : List (Expression × SortDirection)}
    (hinput : input.Rectangular) (h : execSort env input orderBy = .ok rs) : rs.Rectangular := by
  have hmem := @mem_of_mem_sortRecords env orderBy input.records
  unfold execSort at h
  split at h
  · cases h
  · rename_i records hsorted
    cases h
    rw [hsorted] at hmem
    exact fun r hr => hinput r (hmem r hr)

theorem rectangular_execCrossJoin {left right : ResultSet} (hleft : left.Rectangular)
    (hright : right.Rectangular) : (execCrossJoin left right).Rectangular := by
  apply rectangular_ofRows
  intro row hrow
  obtain ⟨l, hl, hrow⟩ := List.mem_flatMap.mp hrow
  obtain ⟨r, hr, rfl⟩ := List.mem_map.mp hrow
  rw [List.length_append, List.length_append, (hleft l hl).2, (hright r hr).2]

theorem rectangular_execJoin {left right : ResultSet} (hleft : left.Rectangular)
    (hright : right.Rectangular) : (execJoin env left right).Rectangular := by
  unfold execJoin
  dsimp only
  split
  · exact rectangular_execCrossJoin hleft hright
  · apply rectangular_ofRows
    intro row hrow
    obtain ⟨l, hl, hrow⟩ := List.mem_flatMap.mp hrow
    obtain ⟨r, -, rfl⟩ := List.mem_map.mp hrow
    rw [List.length_append, List.length_append, (hleft l hl).2, List.length_map]
    -- every kept position is one of the columns, so the column exists
    congr 1
    generalize hkeep : (List.range right.columns.length).filter _ = keep
    have hlt : ∀ i ∈ keep, i < right.columns.length := by
      intro i hi
      rw [← hkeep] at hi
      exact List.mem_range.mp (List.mem_of_mem_filter hi)
    clear hkeep
    induction keep with
    | nil => rfl
    | cons i keep ih =>
      have hi := List.getElem?_eq_getElem (hlt i List.mem_cons_self)
      rw [List.filterMap_cons_some hi, List.length_cons, List.length_cons,
        ih fun j hj => hlt j (List.mem_cons_of_mem _ hj)]

theorem mem_of_mem_distinctRecords {columns seen : List String} {records : List Record} :
    ∀ r ∈ distinctRecords env columns seen records, r ∈ records := by
  induction records generalizing seen with
  | nil => simp [distinctRecords]
  | cons record records ih =>
    intro r hr
    rw [distinctRecords] at hr
    split at hr
    · exact List.mem_cons_of_mem _ (ih r hr)
    · rcases List.mem_cons.mp hr with rfl | hr
      · exact List.mem_cons_self
      · exact List.mem_cons_of_mem _ (ih r hr)

theorem rectangular_execDistinct {rs : ResultSet} (h : rs.Rectangular) :
    (execDistinct env rs).Rectangular :=
  h.ofRows_values (mem_of_mem_distinctRecords env)

/-! ## Plans -/

section Plans

open Process

/-- What the process answers has as many values in each row as there are columns. -/
abbrev AnswersRows (p : ExecM ResultSet) : Prop := p.Answers Rectangular

theorem answersRows_of_pure {rs : ResultSet} (h : rs.Rectangular) :
    AnswersRows (pure rs : ExecM ResultSet) :=
  answers_pure h

/-- The last step of an operator makes the result set; the ones before it do not matter. -/
theorem answersRows_bind {α : Type} {p : ExecM α} {f : α → ExecM ResultSet}
    (h : ∀ a, AnswersRows (f a)) : AnswersRows (p >>= f) :=
  answers_bind (answers_true p) fun a _ => h a

theorem rectangular_message (text : String) : (message text).Rectangular :=
  rectangular_ofRows (by simp)

/-- Expanded rows start as rows of the input. -/
theorem answers_expandEdges (nodeId : NodeId) (direction : Direction) (targetLabels : List String)
    (sourceValues : List Value) (edges : List Edge) :
    (expandEdges env graphId nodeId direction targetLabels sourceValues edges).Answers
      fun rows => ∀ row ∈ rows, row.sourceValues = sourceValues := by
  induction edges with
  | nil => exact answers_pure (by simp)
  | cons edge edges ih =>
    refine answers_bind (answers_true _) fun target _ => answers_bind ih fun rest hrest => ?_
    cases target with
    | error e => exact answers_pure hrest
    | ok node =>
      dsimp only
      split
      · exact answers_pure (by simpa using hrest)
      · exact answers_pure hrest

theorem answers_expandRecords (direction : Direction) (label : Option Label)
    (targetLabels : List String) (records : List Record) :
    (expandRecords env graphId direction label targetLabels records).Answers
      fun rows => ∀ row ∈ rows, ∃ r ∈ records, row.sourceValues = r.values := by
  induction records with
  | nil => exact answers_pure (by simp)
  | cons record records ih =>
    refine answers_bind (answers_true _) fun _ _ => answers_bind (answers_true _) fun uuid _ =>
      answers_bind (answers_true _) fun edges _ =>
      answers_bind (answers_expandEdges env graphId ⟨uuid⟩ direction targetLabels record.values edges)
        fun rows hrows => answers_bind ih fun rest hrest => answers_pure ?_
    intro row hrow
    rcases List.mem_append.mp hrow with hrow | hrow
    · exact ⟨record, List.mem_cons_self, hrows row hrow⟩
    · obtain ⟨r, hr, hvalues⟩ := hrest row hrow
      exact ⟨r, List.mem_cons_of_mem _ hr, hvalues⟩

theorem answersRows_execExpand {input : ResultSet} (hinput : input.Rectangular) (edgeLabel : String)
    (direction : Direction) (targetLabels : List String) (edgeVar targetVar : Option String) :
    AnswersRows (execExpand env graphId input edgeLabel direction targetLabels edgeVar targetVar) := by
  refine answers_bind (answers_expandRecords env graphId direction _ targetLabels input.records)
    fun rows hrows => answersRows_bind fun _ => answersRows_bind fun _ => answers_pure ?_
  apply rectangular_expandResultSet
  intro row hrow
  obtain ⟨r, hr, hvalues⟩ := hrows row hrow
  rw [hvalues, (hinput r hr).2]

theorem answersRows_execIndexScan (indexName : String) (labels : List String) (var : Option String)
    (lookupValues : List Expression) (remaining : Option Expression) :
    AnswersRows (execIndexScan env graphId indexName labels var lookupValues remaining) := by
  refine answersRows_bind fun _ => answersRows_bind fun _ => answersRows_bind fun _ =>
    answersRows_bind fun _ => answersRows_bind fun _ => answersRows_bind fun _ => ?_
  cases remaining with
  | none => exact answers_pure (rectangular_nodeResultSet _ _ _)
  | some predicate =>
    exact answers_ofExcept fun rs hrs =>
      rectangular_execFilter env (rectangular_nodeResultSet _ _ _) hrs

theorem answersRows_createEdgeRows (sourceVar targetVar label : String)
    (properties : List (String × Expression)) (records : List Record) :
    (createEdgeRows env graphId sourceVar targetVar label properties records).Answers
      fun rows => ∀ row ∈ rows, row.length = 1 := by
  induction records with
  | nil => exact answers_pure (by simp)
  | cons record records ih =>
    have hrow : (createEdgeRow env graphId sourceVar targetVar label properties record).Answers
        fun row => row.length = 1 :=
      answers_bind (answers_true _) fun _ _ => answers_bind (answers_true _) fun _ _ =>
        answers_bind (answers_true _) fun _ _ => answers_bind (answers_true _) fun _ _ =>
        answers_bind (answers_true _) fun _ _ => answers_bind (answers_true _) fun _ _ =>
        answers_bind (answers_true _) fun _ _ => answers_bind (answers_true _) fun _ _ =>
        answers_pure rfl
    exact answers_bind hrow fun row hlen => answers_bind ih fun rows hrows =>
      answers_pure (by simpa [hlen] using hrows)

theorem answersRows_procedureResult (procedure : String) :
    AnswersRows (procedureResult env graphId procedure) := by
  unfold procedureResult
  dsimp only
  split
  case h_1 => exact answersRows_bind fun _ => answers_pure (rectangular_ofRows (by simp))
  case h_6 => exact answersRows_bind fun _ => answers_pure (rectangular_ofRows (by simp))
  case h_8 => exact answers_fail _ _
  all_goals
    exact answersRows_bind fun _ => answersRows_bind fun _ =>
      answers_pure (rectangular_ofRows (by simp))

theorem answersRows_execCallProcedure (procedure : String) (yieldItems : Option (List String)) :
    AnswersRows (execCallProcedure env graphId procedure yieldItems) := by
  refine answers_bind (answersRows_procedureResult env graphId procedure) fun result hresult => ?_
  cases yieldItems with
  | none => exact answers_pure hresult
  | some items => exact answers_pure (rectangular_ofRows (by simp))

theorem answersRows_execCreateGraph (name : String) (ifNotExists : Bool) :
    AnswersRows (execCreateGraph env name ifNotExists) := by
  refine answersRows_bind fun found => ?_
  split
  · split
    · exact answers_pure (rectangular_message _)
    · exact answers_fail _ _
  · exact answersRows_bind fun _ => answers_pure (rectangular_message _)

theorem answersRows_execDropGraph (name : String) (ifExists : Bool) :
    AnswersRows (execDropGraph env name ifExists) := by
  refine answersRows_bind fun found => ?_
  split
  · split
    · exact answers_pure (rectangular_message _)
    · exact answers_fail _ _
  · exact answersRows_bind fun _ => answers_pure (rectangular_message _)

/-- Every plan answers rows as wide as its columns. -/
theorem answersRows_executeNode (plan : LogicalPlan) : AnswersRows (executeNode env graphId plan) := by
  induction plan with
  | scan labels graph var =>
    exact answersRows_bind fun _ => answersRows_bind fun _ =>
      answers_pure (rectangular_nodeResultSet _ _ _)
  | filter input predicate ih =>
    exact answers_bind ih fun _ hinput => answers_ofExcept fun _ => rectangular_execFilter env hinput
  | project input expressions aliases ih =>
    exact answers_bind ih fun _ _ => answers_ofExcept fun _ => rectangular_execProject env
  | expand input edgeLabel direction targetLabels edgeVar targetVar ih =>
    exact answers_bind ih fun _ hinput => answersRows_execExpand env graphId hinput _ _ _ _ _
  | join left right ihl ihr =>
    exact answers_bind ihl fun _ hleft => answers_bind ihr fun _ hright =>
      answers_pure (rectangular_execJoin env hleft hright)
  | sort input orderBy ih =>
    exact answers_bind ih fun _ hinput => answers_ofExcept fun _ => rectangular_execSort env hinput
  | limit input count offset ih =>
    exact answers_bind ih fun _ hinput => answers_pure (rectangular_execLimit hinput _ _)
  | distinct input ih =>
    exact answers_bind ih fun _ hinput => answers_pure (rectangular_execDistinct env hinput)
  | createNode labels properties =>
    exact answersRows_bind fun _ => answersRows_bind fun _ => answersRows_bind fun _ =>
      answersRows_bind fun _ => answersRows_bind fun _ => answers_pure (rectangular_ofRows (by simp))
  | createEdgeFromMatch input sourceVar targetVar label properties ih =>
    exact answersRows_bind fun rs =>
      answers_bind (answersRows_createEdgeRows env graphId sourceVar targetVar label properties rs.records)
        fun _ hrows => answers_pure (rectangular_ofRows hrows)
  | deleteNode input targets detach ih =>
    exact answersRows_bind fun _ => answersRows_bind fun _ => answersRows_bind fun _ =>
      answers_pure (rectangular_ofRows (by simp))
  | setProperty input target property value ih =>
    exact answersRows_bind fun _ => answersRows_bind fun _ =>
      answers_pure (rectangular_ofRows (by simp))
  | callProcedure procedure arguments yieldItems =>
    exact answersRows_execCallProcedure env graphId procedure yieldItems
  | empty => exact answers_pure (rectangular_ofRows (by simp))
  | indexScan indexName labels var props values remaining =>
    exact answersRows_execIndexScan env graphId indexName labels var values remaining
  | createIndex name unique entityType label propertyNames =>
    refine answersRows_bind fun _ => ?_
    dsimp only
    generalize (if entityType = "edge" then IndexEntityType.edge else IndexEntityType.node) = kind
    cases kind with
    | node =>
      exact answersRows_bind fun _ => answersRows_bind fun _ =>
        answers_pure (rectangular_ofRows (by simp))
    | edge => exact answers_pure (rectangular_ofRows (by simp))
  | dropIndex name => exact answersRows_bind fun _ => answers_pure (rectangular_ofRows (by simp))
  | createGraph name ifNotExists => exact answersRows_execCreateGraph env name ifNotExists
  | dropGraph name ifExists => exact answersRows_execDropGraph env name ifExists
  | listGraphs => exact answersRows_bind fun _ => answers_pure (rectangular_ofRows (by simp))
  | aggregate | createEdge | union => exact answers_fail _ _

/-! ## Positions -/

/-- The result sets that operators are given while plans are executed: the answers of other plans, the
nodes an index scan found, and the answer of a procedure before `YIELD`. -/
inductive Produced : ResultSet → Prop
  | plan {rs} (plan : LogicalPlan) (ω : Stream' Draw) (db : Db) :
    ((executeNode env graphId plan).run ω db).result = .ok rs → Produced rs
  | nodes (keys : List String) (var : Option String) (nodes : List Node) :
    Produced (nodeResultSet keys var nodes)
  | procedure {rs} (procedure : String) (ω : Stream' Draw) (db : Db) :
    ((procedureResult env graphId procedure).run ω db).result = .ok rs → Produced rs

theorem Produced.rectangular {rs : ResultSet} (h : Produced env graphId rs) : rs.Rectangular := by
  cases h with
  | plan plan ω db h => exact answersRows_executeNode env graphId plan ω db rs h
  | nodes keys var nodes => exact rectangular_nodeResultSet keys var nodes
  | procedure procedure ω db h => exact answersRows_procedureResult env graphId procedure ω db rs h

theorem lt_of_mem_sharedColumns {left right : List String} {s : Nat × Nat}
    (h : s ∈ sharedColumns left right) : s.1 < left.length ∧ s.2 < right.length := by
  obtain ⟨c, hc, hs⟩ := List.mem_filterMap.mp h
  split at hs
  · cases hs
  · obtain ⟨ri, hri, rfl⟩ := Option.map_eq_some_iff.mp hs
    exact ⟨(List.mem_zipIdx' hc).1, (List.idxOf?_eq_some_iff.mp hri).1⟩

end Plans

end Synaptica.Exec
