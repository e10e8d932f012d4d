import Synaptica.Exec.Joining
import Synaptica.Exec.Grouping
import Synaptica.Exec.Lookup
import Synaptica.Exec.ReadOnly
import Synaptica.Exec.Rows

/-!
# Unknown identifiers in accepted programs

The analyzer keeps one scope for the whole program. What a statement can really look up are the columns of the
plan it is added to, and these are fewer: a `MATCH` that continues a plan does not bind its first variable, and a
`RETURN` keeps only what it projects. Inline properties and `ORDER BY` keys are not analyzed at all.

* `columnsOf` — the columns that every answer of a plan has.
* `wellScoped` — all expressions of a plan resolve in the columns they are evaluated on.
* `accepted_finds_identifiers` — an accepted program whose statements are scoped never fails with an unknown
  identifier.
-/

namespace Synaptica.Exec

open Gql Storage Process

/-! ## Columns of a plan -/

/-- The columns that every answer of a plan has, whatever is stored. -/
def columnsOf : LogicalPlan → List String
  | .scan _ _ var => nodeColumns [] var
  | .indexScan _ _ var _ _ _ => nodeColumns [] var
  | .filter input _ | .sort input _ | .limit input _ _ | .distinct input => columnsOf input
  | .expand input _ _ _ edgeVar targetVar =>
    columnsOf input ++ variableColumns [] edgeVar ++ variableColumns [] targetVar
  | .join left right => columnsOf left ++ columnsOf right
  | .project input expressions aliases =>
    if anyContainsAggregate expressions then projectColumns expressions aliases
    else projectColumns expressions aliases ++ (columnsOf input).filter (·.startsWith "__")
  | _ => []

/-- The columns a filter can count on. Directly over a scan without a variable it may be rewritten, and then
any variable stands for the node. -/
def filterColumns : LogicalPlan → List String
  | .scan _ _ none => []
  | input => columnsOf input

/-- What a projection looks up for an item: `COUNT` passes over errors, and two aggregates do not look at their
argument. -/
def itemResolves (columns : List String) (exempt : String → Bool) : Expression → Bool
  | .aggregate .count .. | .aggregate .stdDev .. | .aggregate .percentile .. => true
  | expr => resolves columns exempt expr

/-- All expressions of a reading plan resolve in the columns they are evaluated on. -/
def wellScoped : LogicalPlan → Bool
  | .scan .. | .empty => true
  | .indexScan _ _ var _ values remaining =>
    resolvesAll [] never values && resolvesOption (nodeColumns [] var) never remaining
  | .filter input predicate => wellScoped input && resolves (filterColumns input) never predicate
  | .project input expressions _ => wellScoped input && expressions.all (itemResolves (columnsOf input) never)
  | .sort input orderBy => wellScoped input && orderBy.all fun key => resolves (columnsOf input) never key.1
  | .expand input .. | .limit input _ _ | .distinct input => wellScoped input
  | .join left right => wellScoped left && wellScoped right
  | _ => false

variable {env : Env} {graphId : GraphId}

/-- The answer has these columns, with a value for each of them in every row. -/
structure Offers (columns : List String) (rs : ResultSet) : Prop where
  rectangular : rs.Rectangular
  columns : ∀ c ∈ columns, c ∈ rs.columns

theorem Offers.hasColumns {columns : List String} {rs : ResultSet} (h : Offers columns rs) {r : Record}
    (hr : r ∈ rs.records) : HasColumns columns r := by
  intro c hc
  obtain ⟨hcolumns, hlength⟩ := h.rectangular r hr
  rw [Option.isSome_iff_ne_none]
  intro hnone
  have hmem := (Record.get_eq_none_iff (hcolumns ▸ hlength)).mp hnone
  exact hmem (hcolumns ▸ h.columns c hc)

theorem mem_nodeColumns_of_nil {keys : List String} {var : Option String} {c : String}
    (h : c ∈ nodeColumns [] var) : c ∈ nodeColumns keys var := by
  cases var <;> simp [nodeColumns, variableColumns] at h ⊢ <;> tauto

theorem mem_variableColumns_of_nil {keys : List String} {var : Option String} {c : String}
    (h : c ∈ variableColumns [] var) : c ∈ variableColumns keys var := by
  cases var <;> simp [variableColumns] at h ⊢
  exact .inl h

theorem mem_columns_execJoin {left right : ResultSet} {c : String} (h : c ∈ left.columns ++ right.columns) :
    c ∈ (execJoin env left right).columns := by
  unfold execJoin
  dsimp only
  split
  · exact h
  · rcases List.mem_append.mp h with h | h
    · exact List.mem_append_left _ h
    · obtain ⟨j, hj, hc⟩ := List.mem_iff_getElem.mp h
      by_cases hshared : ∃ s ∈ sharedColumns left.columns right.columns, s.2 = j
      · -- a column that is left out is one of the left side
        obtain ⟨⟨i, _⟩, hs, rfl⟩ := hshared
        obtain ⟨name, hleft, hright, -⟩ := mem_sharedColumns.mp hs
        obtain ⟨_, hname, -⟩ := List.idxOf?_eq_some_iff.mp hright
        have hsame : name = c := (hname.symm.trans hc)
        exact List.mem_append_left _ (hsame ▸ List.mem_of_getElem? hleft)
      · apply List.mem_append_right
        refine List.mem_filterMap.mpr ⟨j, List.mem_filter.mpr ⟨List.mem_range.mpr hj, ?_⟩, ?_⟩
        · rw [Bool.not_eq_true', List.any_eq_false]
          intro s hs hsj
          exact hshared ⟨s, hs, beq_iff_eq.mp hsj⟩
        · rw [List.getElem?_eq_getElem hj, hc]

/-! ## Operators -/

section Operators

variable {columns : List String}

theorem finds_filterRecords {predicate : Expression} (h : resolves columns never predicate = true)
    {records : List Record} (hrecords : ∀ r ∈ records, HasColumns columns r) :
    Finds (filterRecords env predicate records) := by
  induction records with
  | nil => exact finds_ok _
  | cons r records ih =>
    obtain ⟨hr, hrecords⟩ := List.forall_mem_cons.mp hrecords
    exact finds_bind (evaluate_of_resolves hr predicate h) fun _ =>
      finds_bind (ih hrecords) fun _ => finds_ok _

theorem finds_execFilter {input : ResultSet} {predicate : Expression} (hinput : Offers columns input)
    (h : resolves columns never predicate = true) : Finds (execFilter env input predicate) :=
  finds_bind (finds_filterRecords h fun _ => hinput.hasColumns) fun _ => finds_ok _

theorem finds_compareRecords {keys : List (Expression × SortDirection)}
    (h : ∀ key ∈ keys, resolves columns never key.1 = true) {a b : Record} (ha : HasColumns columns a)
    (hb : HasColumns columns b) : Finds (compareRecords env a b keys) := by
  induction keys with
  | nil => exact finds_ok _
  | cons key keys ih =>
    obtain ⟨expr, dir⟩ := key
    obtain ⟨hkey, hkeys⟩ := List.forall_mem_cons.mp h
    refine finds_bind (evaluate_of_resolves ha expr hkey) fun va =>
      finds_bind (evaluate_of_resolves hb expr hkey) fun vb => ?_
    cases cmpValues va vb with
    | eq => exact ih hkeys
    | _ => cases dir <;> exact finds_ok _

/-- The error that a sort ends with is one of a comparison. -/
theorem insertTail_finds {keys : List (Expression × SortDirection)}
    (h : ∀ key ∈ keys, resolves columns never key.1 = true) {record : Record} (hrecord : HasColumns columns record)
    {err : Option ExecError} (herr : ∀ e ∈ err, ¬ UnknownIdentifier e) {sorted : List Record}
    (hsorted : ∀ r ∈ sorted, HasColumns columns r) :
    (∀ e ∈ (insertTail env keys record err sorted).1, ¬ UnknownIdentifier e) ∧
      ∀ r ∈ (insertTail env keys record err sorted).2, HasColumns columns r := by
  induction sorted generalizing err with
  | nil =>
    rw [insertTail]
    exact ⟨herr, by simpa using hrecord⟩
  | cons last sorted ih =>
    obtain ⟨hlast, hrest⟩ := List.forall_mem_cons.mp hsorted
    have hboth : ∀ r ∈ record :: last :: sorted, HasColumns columns r :=
      List.forall_mem_cons.mpr ⟨hrecord, hsorted⟩
    cases err with
    | some e =>
      rw [insertTail]
      exact ⟨herr, hboth⟩
    | none =>
      have hfinds := @finds_compareRecords env columns keys h record last hrecord hlast
      rw [insertTail]
      cases hcompare : compareRecords env record last keys with
      | error e =>
        refine ⟨fun e' he' => ?_, hboth⟩
        cases he'
        exact hfinds e hcompare
      | ok ord =>
        cases ord with
        | lt =>
          obtain ⟨herr', hrest'⟩ := ih herr hrest
          exact ⟨herr', List.forall_mem_cons.mpr ⟨hlast, hrest'⟩⟩
        | _ => exact ⟨herr, hboth⟩

theorem finds_execSort {input : ResultSet} {keys : List (Expression × SortDirection)}
    (hinput : Offers columns input) (h : ∀ key ∈ keys, resolves columns never key.1 = true) :
    Finds (execSort env input keys) := by
  have hloop : ∀ (records : List Record) (acc : Option ExecError × List Record),
      (∀ r ∈ records, HasColumns columns r) → (∀ e ∈ acc.1, ¬ UnknownIdentifier e) →
      (∀ r ∈ acc.2, HasColumns columns r) →
        ∀ e ∈ (records.foldl (fun acc r => insertTail env keys r acc.1 acc.2) acc).1, ¬ UnknownIdentifier e := by
    intro records
    induction records with
    | nil =>
      intro acc _ hacc _
      exact hacc
    | cons r records ih =>
      intro acc hrecords hacc hsorted
      obtain ⟨hr, hrecords⟩ := List.forall_mem_cons.mp hrecords
      obtain ⟨herr, hcolumns⟩ := insertTail_finds h hr hacc hsorted
      exact ih _ hrecords herr hcolumns
  have herr := hloop input.records (none, []) (fun _ => hinput.hasColumns) (fun _ he => by cases he)
    (fun _ hr => by cases hr)
  intro e he
  unfold execSort at he
  split at he
  · rename_i e' _ hsorted
    cases he
    apply herr
    rw [sortRecords] at hsorted
    rw [(Prod.mk.inj hsorted).1]
    rfl
  · cases he

theorem itemResolves_of_not_containsAggregate {exempt : String → Bool} {e : Expression}
    (h : containsAggregate e = false) : itemResolves columns exempt e = resolves columns exempt e := by
  cases e with
  | aggregate => cases h
  | _ => rfl

theorem finds_evaluateAll {r : Record} (hr : HasColumns columns r) {es : List Expression}
    (h : ∀ e ∈ es, resolves columns never e = true) : Finds (evaluateAll env r es) := by
  induction es with
  | nil =>
    rw [evaluateAll]
    exact finds_ok _
  | cons e es ih =>
    obtain ⟨he, hes⟩ := List.forall_mem_cons.mp h
    rw [evaluateAll]
    exact finds_bind (evaluate_of_resolves hr e he) fun _ => finds_bind (ih hes) fun _ => finds_ok _

theorem finds_mapM {α β : Type} {f : α → Except ExecError β} {l : List α} (h : ∀ a ∈ l, Finds (f a)) :
    Finds (l.mapM f) := by
  induction l with
  | nil => exact finds_ok _
  | cons a l ih =>
    obtain ⟨ha, hl⟩ := List.forall_mem_cons.mp h
    rw [List.mapM_cons]
    exact finds_bind ha fun _ => finds_bind (ih hl) fun _ => finds_ok _

theorem finds_map {α β : Type} {x : Except ExecError α} {f : α → β} (h : Finds x) : Finds (f <$> x) := by
  intro e he
  cases x with
  | ok a => cases he
  | error e' =>
    cases he
    exact h e rfl

theorem finds_projectRows {expressions : List Expression} {internal : List (Option Nat)}
    (h : ∀ e ∈ expressions, resolves columns never e = true) {records : List Record}
    (hrecords : ∀ r ∈ records, HasColumns columns r) : Finds (projectRows env expressions internal records) := by
  induction records with
  | nil => exact finds_ok _
  | cons r records ih =>
    obtain ⟨hr, hrecords⟩ := List.forall_mem_cons.mp hrecords
    exact finds_bind (finds_bind (finds_evaluateAll hr h) fun _ => finds_ok _) fun _ =>
      finds_bind (ih hrecords) fun _ => finds_ok _

theorem finds_groupRecords {groupExprs : List Expression}
    (h : ∀ e ∈ groupExprs, resolves columns never e = true) {records : List Record}
    (hrecords : ∀ r ∈ records, HasColumns columns r) (groups : OrderedMap String (List Record)) :
    Finds (groupRecords env groupExprs groups records) := by
  induction records generalizing groups with
  | nil => exact finds_ok _
  | cons r records ih =>
    obtain ⟨hr, hrecords⟩ := List.forall_mem_cons.mp hrecords
    exact finds_bind (finds_bind (finds_evaluateAll hr h) fun _ => finds_ok _) fun _ => ih hrecords _

/-- The groups hold records of the input. -/
theorem mem_of_mem_groupRecords {groupExprs : List Expression} {records : List Record}
    {groups : OrderedMap String (List Record)} (h : groupRecords env groupExprs ∅ records = .ok groups)
    {group : String × List Record} (hgroup : group ∈ groups.toList) : ∀ r ∈ group.2, r ∈ records := by
  obtain ⟨-, rfl⟩ := groupRecords_eq_ok env h (fun r => (groupTexts env groupExprs r).toOption.getD [])
    fun r _ t ht => by simp [ht, Except.toOption]
  obtain ⟨hmem, -⟩ := OrderedMap.mem_toList_collect.mp hgroup
  intro r hr
  exact (OrderedMap.mem_ofKey.mp (hmem ▸ hr)).1

/-- The value of an item over a group. -/
theorem finds_groupValue {first : Record} {records : List Record} (hfirst : HasColumns columns first)
    (hrecords : ∀ r ∈ records, HasColumns columns r) {e : Expression}
    (h : itemResolves columns never e = true) : Finds (groupValue env first records e) := by
  cases e with
  | aggregate function distinct arg =>
    have hargs : resolves columns never (.aggregate function distinct arg) = true →
        Finds (aggregateArgs env arg records) := by
      intro harg
      cases arg with
      | none => exact finds_ok _
      | some inner =>
        rw [resolves, resolvesOption] at harg
        exact finds_mapM fun r hr => evaluate_of_resolves (hrecords r hr) inner harg
    cases function with
    | count => cases arg <;> exact finds_ok _
    | stdDev | percentile => exact finds_ok _
    | sum | avg | min | max | collect => exact finds_map (hargs h)
  | _ => exact evaluate_of_resolves hfirst _ h

theorem finds_execProject {input : ResultSet} {expressions : List Expression} {aliases : List (Option String)}
    (hinput : Offers columns input) (h : ∀ e ∈ expressions, itemResolves columns never e = true) :
    Finds (execProject env input expressions aliases) := by
  have hplain : ∀ e ∈ expressions, containsAggregate e = false → resolves columns never e = true := by
    intro e he hagg
    rw [← itemResolves_of_not_containsAggregate hagg]
    exact h e he
  unfold execProject
  split
  · refine Except.fails_bind (finds_groupRecords (fun e he => ?_) (fun _ => hinput.hasColumns) ∅) ?_
    · obtain ⟨he, hagg⟩ := List.mem_filter.mp he
      exact hplain e he (by simpa using hagg)
    · intro groups hgroups
      split
      · exact finds_ok _
      · refine finds_bind (finds_mapM fun group hgroup => ?_) fun _ => finds_ok _
        have hmembers : ∀ r ∈ group.2, HasColumns columns r := by
          intro r hr
          exact hinput.hasColumns (mem_of_mem_groupRecords hgroups hgroup r hr)
        cases hrecords : group.2 with
        | nil => exact finds_ok _
        | cons first rest =>
          rw [hrecords] at hmembers
          exact finds_mapM fun e he => finds_groupValue (hmembers first List.mem_cons_self) hmembers (h e he)
  · rename_i hagg
    have hall : ∀ e ∈ expressions, resolves columns never e = true := by
      intro e he
      refine hplain e he ?_
      by_contra hc
      exact hagg (anyContainsAggregate_of_mem he (Bool.eq_true_of_not_eq_false hc))
    dsimp only
    split
    · rename_i hempty
      have hnone : columns = [] := by
        rw [List.eq_nil_iff_forall_not_mem]
        intro c hc
        have hmem := hinput.columns c hc
        rw [List.isEmpty_iff.mp (Bool.and_eq_true_iff.mp hempty).2] at hmem
        cases hmem
      have hrow : HasColumns columns ⟨[], []⟩ := by
        intro c hc
        rw [hnone] at hc
        cases hc
      exact finds_bind (finds_evaluateAll hrow hall) fun _ => finds_ok _
    · exact finds_bind (finds_projectRows hall fun _ => hinput.hasColumns) fun _ => finds_ok _

end Operators

/-! ## Plans -/

section Plans

variable {α : Type}

/-- No run of the process fails with an unknown identifier. -/
abbrev FindsAll (p : ExecM α) : Prop := p.FailsOnly fun e => ¬ UnknownIdentifier e

theorem findsAll_ofExcept {r : Except ExecError α} (h : Finds r) : FindsAll (.ofExcept r) :=
  failsOnly_ofExcept h

theorem findsAll_query (f : Db → StorageResult α) : FindsAll (query f asStorageError) := by
  refine failsOnly_read fun db e he => ?_
  cases hresult : f db with
  | ok a =>
    rw [hresult] at he
    cases he
  | error err =>
    rw [hresult] at he
    cases he
    rintro ⟨name, hname⟩
    cases hname

theorem findsAll_tryQuery (f : Db → StorageResult α) : FindsAll (tryQuery f) :=
  failsOnly_read fun _ _ he => by cases he

theorem findsAll_internal (msg : String) : FindsAll (.fail (.internal msg) : ExecM α) := by
  refine failsOnly_fail fun h => ?_
  obtain ⟨name, hname⟩ := h
  cases hname

theorem findsAll_hashOrder (keys : List String) : FindsAll (hashOrder keys) :=
  failsOnly_then failsOnly_drawn fun _ => failsOnly_pure _

theorem findsAll_execScan (labels : List String) (var : Option String) :
    FindsAll (execScan env graphId labels var) :=
  failsOnly_then (findsAll_query _) fun _ => failsOnly_then (findsAll_hashOrder _) fun _ => failsOnly_pure _

theorem findsAll_edgesAt (nodeId : NodeId) (direction : Direction) (label : Option Label) :
    FindsAll (edgesAt env graphId nodeId direction label) := by
  cases direction with
  | outgoing => exact findsAll_query _
  | incoming => exact findsAll_query _
  | undirected =>
    exact failsOnly_then (findsAll_query _) fun _ => failsOnly_then (findsAll_query _) fun _ => failsOnly_pure _

theorem findsAll_expandEdges (nodeId : NodeId) (direction : Direction) (targetLabels : List String)
    (sourceValues : List Value) (edges : List Edge) :
    FindsAll (expandEdges env graphId nodeId direction targetLabels sourceValues edges) := by
  induction edges with
  | nil => exact failsOnly_pure _
  | cons edge edges ih =>
    refine failsOnly_then (findsAll_tryQuery _) fun target => failsOnly_then ih fun rest => ?_
    cases target with
    | error e => exact failsOnly_pure _
    | ok node =>
      dsimp only
      split <;> exact failsOnly_pure _

theorem findsAll_parseId (what s : String) : FindsAll (parseId env what s) := by
  unfold parseId
  split
  · exact failsOnly_pure _
  · exact findsAll_internal _

theorem findsAll_expandRecords (direction : Direction) (label : Option Label) (targetLabels : List String)
    (records : List Record) : FindsAll (expandRecords env graphId direction label targetLabels records) := by
  induction records with
  | nil => exact failsOnly_pure _
  | cons r records ih =>
    refine failsOnly_then ?_ fun _ => failsOnly_then (findsAll_parseId _ _) fun _ =>
      failsOnly_then (findsAll_edgesAt _ _ _) fun _ => failsOnly_then (findsAll_expandEdges _ _ _ _ _) fun _ =>
      failsOnly_then ih fun _ => failsOnly_pure _
    refine failsOnly_ofExcept fun e he => ?_
    split at he
    · cases he
    · cases he
      rintro ⟨name, hname⟩
      cases hname

theorem findsAll_execExpand (input : ResultSet) (edgeLabel : String) (direction : Direction)
    (targetLabels : List String) (edgeVar targetVar : Option String) :
    FindsAll (execExpand env graphId input edgeLabel direction targetLabels edgeVar targetVar) :=
  failsOnly_then (findsAll_expandRecords _ _ _ _) fun _ => failsOnly_then (findsAll_hashOrder _) fun _ =>
    failsOnly_then (findsAll_hashOrder _) fun _ => failsOnly_pure _

theorem findsAll_loadNodes (labels : List String) (ids : List NodeId) :
    FindsAll (loadNodes env graphId labels ids) := by
  induction ids with
  | nil => exact failsOnly_pure _
  | cons id ids ih =>
    refine failsOnly_then (findsAll_tryQuery _) fun found => failsOnly_then ih fun rest => ?_
    cases found <;> exact failsOnly_pure _

theorem offers_nodeResultSet (keys : List String) (var : Option String) (nodes : List Node) :
    Offers (nodeColumns [] var) (nodeResultSet keys var nodes) where
  rectangular := rectangular_nodeResultSet keys var nodes
  columns _ hc := mem_nodeColumns_of_nil hc

/-- What an operator adds to the columns of its input. -/
theorem answers_offers {plan : LogicalPlan}
    (h : (executeNode env graphId plan).Answers fun rs => ∀ c ∈ columnsOf plan, c ∈ rs.columns) :
    (executeNode env graphId plan).Answers (Offers (columnsOf plan)) :=
  fun ω s rs hrs => ⟨answersRows_executeNode env graphId plan ω s rs hrs, h ω s rs hrs⟩

theorem columns_execFilter {input rs : ResultSet} {predicate : Expression}
    (h : execFilter env input predicate = .ok rs) : rs.columns = input.columns := by
  obtain ⟨_, -, hrs⟩ := Except.bind_eq_ok.mp h
  cases hrs
  rfl

theorem columns_execSort {input rs : ResultSet} {keys : List (Expression × SortDirection)}
    (h : execSort env input keys = .ok rs) : rs.columns = input.columns := by
  unfold execSort at h
  split at h
  · cases h
  · cases h
    rfl

/-- A projection keeps the internal columns, unless it aggregates. -/
theorem mem_columns_execProject {input rs : ResultSet} {expressions : List Expression}
    {aliases : List (Option String)} {columns : List String} (hinput : ∀ c ∈ columns, c ∈ input.columns)
    (h : execProject env input expressions aliases = .ok rs) :
    ∀ c ∈ (if anyContainsAggregate expressions then projectColumns expressions aliases
      else projectColumns expressions aliases ++ columns.filter (·.startsWith "__")), c ∈ rs.columns := by
  unfold execProject at h
  by_cases hagg : anyContainsAggregate expressions = true
  · rw [if_pos hagg] at h ⊢
    obtain ⟨groups, -, h⟩ := Except.bind_eq_ok.mp h
    split at h
    · cases h
      exact fun _ hc => hc
    · obtain ⟨rows, -, h⟩ := Except.bind_eq_ok.mp h
      cases h
      exact fun _ hc => hc
  · rw [if_neg hagg] at h ⊢
    have hcolumns : rs.columns = projectColumns expressions aliases ++
        internalColumns input.columns (projectColumns expressions aliases) := by
      dsimp only at h
      split at h
      · obtain ⟨values, -, h⟩ := Except.bind_eq_ok.mp h
        cases h
        rfl
      · obtain ⟨rows, -, h⟩ := Except.bind_eq_ok.mp h
        cases h
        rfl
    intro c hc
    rw [hcolumns]
    rcases List.mem_append.mp hc with hc | hc
    · exact List.mem_append_left _ hc
    · obtain ⟨hc, hinternal⟩ := List.mem_filter.mp hc
      by_cases hprojected : c ∈ projectColumns expressions aliases
      · exact List.mem_append_left _ hprojected
      · apply List.mem_append_right
        refine List.mem_filter.mpr ⟨hinput c hc, ?_⟩
        simpa [hprojected] using hinternal

theorem answers_columnsOf (plan : LogicalPlan) :
    (executeNode env graphId plan).Answers fun rs => ∀ c ∈ columnsOf plan, c ∈ rs.columns := by
  induction plan with
  | scan labels graph var =>
    exact answers_bind (answers_true _) fun _ _ => answers_bind (answers_true _) fun _ _ =>
      answers_pure fun _ hc => mem_nodeColumns_of_nil hc
  | indexScan name labels var props values remaining =>
    refine answers_bind (answers_true _) fun _ _ => answers_bind (answers_true _) fun _ _ =>
      answers_bind (answers_true _) fun _ _ => answers_bind (answers_true _) fun _ _ =>
      answers_bind (answers_true _) fun nodes _ => answers_bind (answers_true _) fun keys _ => ?_
    cases remaining with
    | none => exact answers_pure fun _ hc => mem_nodeColumns_of_nil hc
    | some predicate =>
      refine answers_ofExcept fun rs hrs c hc => ?_
      rw [columns_execFilter hrs]
      exact mem_nodeColumns_of_nil hc
  | filter input predicate ih =>
    refine answers_bind ih fun rs hrs => answers_ofExcept fun out hout => ?_
    rw [columns_execFilter hout]
    exact hrs
  | sort input keys ih =>
    refine answers_bind ih fun rs hrs => answers_ofExcept fun out hout => ?_
    rw [columns_execSort hout]
    exact hrs
  | project input expressions aliases ih =>
    exact answers_bind ih fun rs hrs => answers_ofExcept fun out hout => mem_columns_execProject hrs hout
  | expand input edgeLabel direction targetLabels edgeVar targetVar ih =>
    refine answers_bind ih fun rs hrs => answers_bind (answers_true _) fun _ _ =>
      answers_bind (answers_true _) fun _ _ => answers_bind (answers_true _) fun _ _ => answers_pure ?_
    intro c hc
    show c ∈ rs.columns ++ _ ++ _
    rcases List.mem_append.mp hc with hc | hc
    · apply List.mem_append_left
      exact (List.mem_append.mp hc).elim (fun h => List.mem_append_left _ (hrs c h))
        fun h => List.mem_append_right _ (mem_variableColumns_of_nil h)
    · exact List.mem_append_right _ (mem_variableColumns_of_nil hc)
  | join left right ihl ihr =>
    refine answers_bind ihl fun l hl => answers_bind ihr fun r hr => answers_pure fun c hc => ?_
    apply mem_columns_execJoin
    exact List.mem_append.mpr ((List.mem_append.mp hc).imp (hl c) (hr c))
  | limit input count offset ih => exact answers_bind ih fun rs hrs => answers_pure hrs
  | distinct input ih => exact answers_bind ih fun rs hrs => answers_pure hrs
  | _ => exact fun _ _ _ _ c hc => absurd hc List.not_mem_nil

/-- The columns a filter counts on are among those of its input. -/
theorem mem_columnsOf_of_filterColumns {plan : LogicalPlan} {c : String} (h : c ∈ filterColumns plan) :
    c ∈ columnsOf plan := by
  unfold filterColumns at h
  split at h
  · cases h
  · exact h

/-- **A well-scoped plan finds every identifier it looks up.** -/
theorem findsAll_executeNode {plan : LogicalPlan} (h : wellScoped plan = true) :
    FindsAll (executeNode env graphId plan) := by
  induction plan with
  | scan labels graph var => exact findsAll_execScan _ _
  | empty => exact failsOnly_pure _
  | indexScan name labels var props values remaining =>
    obtain ⟨hvalues, hremaining⟩ := Bool.and_eq_true_iff.mp h
    have hnone : HasColumns [] ⟨[], []⟩ := fun c hc => absurd hc List.not_mem_nil
    refine failsOnly_then (findsAll_query _) fun indexes => failsOnly_then ?_ fun index =>
      failsOnly_then (findsAll_ofExcept (evaluateAll_of_resolves hnone values hvalues)) fun _ =>
      failsOnly_then (findsAll_query _) fun ids => failsOnly_then (findsAll_loadNodes _ _) fun nodes =>
      failsOnly_then (findsAll_hashOrder _) fun keys => ?_
    · refine failsOnly_ofExcept fun e he => ?_
      split at he
      · cases he
      · cases he
        rintro ⟨name, hname⟩
        cases hname
    · cases remaining with
      | none => exact failsOnly_pure _
      | some predicate => exact findsAll_ofExcept (finds_execFilter (offers_nodeResultSet _ _ _) hremaining)
  | filter input predicate ih =>
    obtain ⟨hinput, hpredicate⟩ := Bool.and_eq_true_iff.mp h
    refine failsOnly_bind (ih hinput) (answers_offers (answers_columnsOf input)) fun rs hrs => ?_
    have hfilter : Offers (filterColumns input) rs :=
      ⟨hrs.rectangular, fun c hc => hrs.columns c (mem_columnsOf_of_filterColumns hc)⟩
    exact findsAll_ofExcept (finds_execFilter hfilter hpredicate)
  | project input expressions aliases ih =>
    obtain ⟨hinput, hitems⟩ := Bool.and_eq_true_iff.mp h
    exact failsOnly_bind (ih hinput) (answers_offers (answers_columnsOf input)) fun rs hrs =>
      findsAll_ofExcept (finds_execProject hrs (List.all_eq_true.mp hitems))
  | sort input keys ih =>
    obtain ⟨hinput, hkeys⟩ := Bool.and_eq_true_iff.mp h
    exact failsOnly_bind (ih hinput) (answers_offers (answers_columnsOf input)) fun rs hrs =>
      findsAll_ofExcept (finds_execSort hrs (List.all_eq_true.mp hkeys))
  | expand input edgeLabel direction targetLabels edgeVar targetVar ih =>
    exact failsOnly_then (ih h) fun rs => findsAll_execExpand _ _ _ _ _ _
  | join left right ihl ihr =>
    obtain ⟨hleft, hright⟩ := Bool.and_eq_true_iff.mp h
    exact failsOnly_then (ihl hleft) fun _ => failsOnly_then (ihr hright) fun _ => failsOnly_pure _
  | limit input count offset ih => exact failsOnly_then (ih h) fun _ => failsOnly_pure _
  | distinct input ih => exact failsOnly_then (ih h) fun _ => failsOnly_pure _
  | _ => cases h

/-! ## What the index rewrite makes of a plan -/

theorem resolves_of_isLiteralExpr {columns : List String} {e : Expression} (h : isLiteralExpr e = true) :
    resolves columns never e = true := by
  cases e with
  | literal lit => rw [resolves]
  | _ => cases h

/-- An equality that an index could serve has a literal on one side, and the other side stands for a property
of the variable. -/
theorem eqPredicate_eq_some {var : Option String} {left right : Expression} {p : String × Expression}
    (h : eqPredicate var left right = some p) : isLiteralExpr p.2 = true ∧
      (extractPropertyName var left = some p.1 ∨ extractPropertyName var right = some p.1) := by
  have hflipped : isLiteralExpr left = true → (extractPropertyName var right).map (·, left) = some p →
      isLiteralExpr p.2 = true ∧
        (extractPropertyName var left = some p.1 ∨ extractPropertyName var right = some p.1) := by
    intro hlit hname
    obtain ⟨prop, hprop, rfl⟩ := Option.map_eq_some_iff.mp hname
    exact ⟨hlit, .inr hprop⟩
  unfold eqPredicate at h
  split at h
  · next prop hprop =>
    split at h
    · next hlit =>
      cases h
      exact ⟨hlit, .inl hprop⟩
    · split at h
      · next hlit => exact hflipped hlit h
      · cases h
  · split at h
    · next hlit => exact hflipped hlit h
    · cases h

/-- What is taken out of a filter and what is left of it. -/
theorem extractEqPredicates_resolves {var : Option String} {columns : List String} {e : Expression}
    (h : resolves columns never e = true) :
    (∀ p ∈ (extractEqPredicates var e).1, isLiteralExpr p.2 = true ∧
      ∃ side, extractPropertyName var side = some p.1 ∧ resolves columns never side = true) ∧
    ∀ c ∈ (extractEqPredicates var e).2, resolves columns never c = true := by
  induction e using extractEqPredicates.induct var with
  | case1 left right ihl ihr =>
    rw [resolves, Bool.and_eq_true] at h
    rw [extractEqPredicates]
    exact ⟨List.forall_mem_append.mpr ⟨(ihl h.1).1, (ihr h.2).1⟩,
      List.forall_mem_append.mpr ⟨(ihl h.1).2, (ihr h.2).2⟩⟩
  | case2 left right p hp =>
    rw [resolves, Bool.and_eq_true] at h
    obtain ⟨hlit, hname⟩ := eqPredicate_eq_some hp
    rw [extractEqPredicates, hp]
    refine ⟨fun q hq => ?_, fun c hc => absurd hc List.not_mem_nil⟩
    cases List.mem_singleton.mp hq
    refine ⟨hlit, ?_⟩
    rcases hname with hname | hname
    · exact ⟨left, hname, h.1⟩
    · exact ⟨right, hname, h.2⟩
  | case3 left right hp =>
    rw [extractEqPredicates, hp]
    refine ⟨fun q hq => absurd hq List.not_mem_nil, fun c hc => ?_⟩
    cases List.mem_singleton.mp hc
    exact h
  | case4 e hand heq =>
    rw [extractEqPredicates]
    · refine ⟨fun q hq => absurd hq List.not_mem_nil, fun c hc => ?_⟩
      cases List.mem_singleton.mp hc
      exact h
    · exact hand
    · exact heq

/-- Over a nameless scan no equality is taken out: its variable would not resolve. -/
theorem extractEqPredicates_nameless {e : Expression} (h : resolves [] never e = true) :
    (extractEqPredicates none e).1 = [] := by
  rw [List.eq_nil_iff_forall_not_mem]
  intro p hp
  obtain ⟨-, side, hname, hside⟩ := (extractEqPredicates_resolves h).1 p hp
  cases side with
  | identifier name => cases hname
  | propertyAccess object property =>
    cases object with
    | identifier name => simp [resolves, hasPropertyColumn, never] at hside
    | _ => cases hname
  | _ => cases hname

theorem resolves_conjunction {columns : List String} {parts : List Expression}
    (h : ∀ c ∈ parts, resolves columns never c = true) :
    resolvesOption columns never (conjunction parts) = true := by
  have hfold : ∀ (rest : List Expression) (first : Expression), resolves columns never first = true →
      (∀ c ∈ rest, resolves columns never c = true) →
        resolves columns never (rest.foldl (fun a b => .binaryOp a .and b) first) = true := by
    intro rest
    induction rest with
    | nil => exact fun first hfirst _ => hfirst
    | cons c rest ih =>
      intro first hfirst hrest
      obtain ⟨hc, hrest⟩ := List.forall_mem_cons.mp hrest
      apply ih _ _ hrest
      rw [resolves, hfirst, hc]
      rfl
  cases parts with
  | nil =>
    show resolvesOption columns never none = true
    rw [resolvesOption]
  | cons first rest =>
    obtain ⟨hfirst, hrest⟩ := List.forall_mem_cons.mp h
    show resolvesOption columns never (some _) = true
    rw [resolvesOption]
    exact hfold rest first hfirst hrest

theorem resolvesAll_iff {columns : List String} {exempt : String → Bool} {es : List Expression} :
    resolvesAll columns exempt es = true ↔ ∀ e ∈ es, resolves columns exempt e = true := by
  induction es with
  | nil => simp [resolvesAll]
  | cons e es ih => rw [resolvesAll, Bool.and_eq_true, ih, List.forall_mem_cons]

/-- An index scan that replaces a filter is well scoped when the filter is. -/
theorem wellScoped_tryIndexScan {indexes : List IndexDefinition} {labels : List String} {graph var : Option String}
    {predicate : Expression} {plan : LogicalPlan}
    (hpredicate : resolves (filterColumns (.scan labels graph var)) never predicate = true)
    (h : tryIndexScan indexes labels var predicate = some plan) :
    wellScoped plan = true ∧ columnsOf plan = nodeColumns [] var := by
  obtain ⟨index, -, hindex⟩ := List.exists_of_findSome?_eq_some h
  unfold indexScanFor at hindex
  split at hindex
  · cases hindex
  · split at hindex
    · cases hindex
    · cases hindex
    · rename_i used hnotNil hused
      cases hindex
      refine ⟨?_, rfl⟩
      cases var with
      | none =>
        rw [extractEqPredicates_nameless hpredicate] at hused
        cases hnames : index.propertyNames with
        | nil =>
          rw [hnames] at hused
          exact absurd (Option.some.inj hused).symm hnotNil
        | cons name names =>
          rw [hnames] at hused
          cases hused
      | some v =>
        obtain ⟨hequalities, hothers⟩ := @extractEqPredicates_resolves (some v) _ _ hpredicate
        show (resolvesAll [] never _ && resolvesOption (nodeColumns [] (some v)) never _) = true
        rw [Bool.and_eq_true, resolvesAll_iff]
        constructor
        · intro value hvalue
          obtain ⟨i, -, hi⟩ := List.mem_filterMap.mp hvalue
          obtain ⟨p, hp, rfl⟩ := Option.map_eq_some_iff.mp hi
          exact resolves_of_isLiteralExpr (hequalities p (List.mem_of_getElem? hp)).1
        · refine resolves_conjunction fun c hc => ?_
          rcases List.mem_append.mp hc with hc | hc
          · obtain ⟨p, hp, rfl⟩ := List.mem_map.mp hc
            obtain ⟨q, hq, rfl⟩ := List.mem_map.mp hp
            have hlit := (hequalities q.1 (List.fst_mem_of_mem_zipIdx (List.mem_filter.mp hq).1)).1
            have hv : v ∈ nodeColumns [] (some v) := by simp [nodeColumns, variableColumns]
            rw [rebuildEqPredicate, resolves, resolves_of_isLiteralExpr hlit, resolves, resolves,
              List.contains_iff_mem.mpr hv]
            simp
          · exact hothers c hc

theorem filterColumns_eq {plan : LogicalPlan} (h : ∀ labels graph, plan ≠ .scan labels graph none) :
    filterColumns plan = columnsOf plan := by
  unfold filterColumns
  split
  · rename_i labels graph
    exact absurd rfl (h labels graph)
  · rfl

/-- The plan that becomes of another one is well scoped and has the same columns. -/
structure StaysScoped (before after : LogicalPlan) : Prop where
  wellScoped : wellScoped after = true
  columns : columnsOf after = columnsOf before
  filterColumns : filterColumns after = filterColumns before

/-- Where neither plan is a scan, filters count on all columns. -/
theorem staysScoped_of_columns {before after : LogicalPlan} (hscoped : wellScoped after = true)
    (hcolumns : columnsOf after = columnsOf before) (hafter : ∀ labels graph, after ≠ .scan labels graph none)
    (hbefore : ∀ labels graph, before ≠ .scan labels graph none) : StaysScoped before after :=
  ⟨hscoped, hcolumns, by rw [filterColumns_eq hafter, filterColumns_eq hbefore, hcolumns]⟩

theorem staysScoped_rewriteFilter (db : Db) {input input' : LogicalPlan} {predicate : Expression}
    (hinput : StaysScoped input input') (hpredicate : resolves (filterColumns input) never predicate = true) :
    StaysScoped (.filter input predicate) (rewriteFilter env graphId db input' predicate) := by
  have hkept : StaysScoped (.filter input predicate) (.filter input' predicate) := by
    refine staysScoped_of_columns ?_ hinput.columns (fun _ _ h => by cases h) fun _ _ h => by cases h
    rw [wellScoped, hinput.wellScoped, hinput.filterColumns, hpredicate]
    rfl
  unfold rewriteFilter
  split
  · rename_i labels graph var
    split
    · rename_i indexes _
      cases hscan : tryIndexScan indexes labels var predicate with
      | none => exact hkept
      | some plan =>
        rw [← hinput.filterColumns] at hpredicate
        obtain ⟨hscoped, hcolumns⟩ := wellScoped_tryIndexScan hpredicate hscan
        obtain ⟨name, props, values, remaining, rfl⟩ := tryIndexScan_eq_some hscan
        exact staysScoped_of_columns hscoped hinput.columns (fun _ _ h => by cases h) fun _ _ h => by cases h
    · exact hkept
  · exact hkept

/-- **The rewrite keeps a plan well scoped**, with the columns it had. -/
theorem staysScoped_optimized (db : Db) {plan : LogicalPlan} (h : wellScoped plan = true) :
    StaysScoped plan (optimized env graphId db plan) := by
  induction plan with
  | filter input predicate ih =>
    obtain ⟨hinput, hpredicate⟩ := Bool.and_eq_true_iff.mp h
    exact staysScoped_rewriteFilter db (ih hinput) hpredicate
  | project input expressions aliases ih =>
    obtain ⟨hinput, hitems⟩ := Bool.and_eq_true_iff.mp h
    obtain ⟨hscoped, hcolumns, -⟩ := ih hinput
    refine staysScoped_of_columns ?_ ?_ (fun _ _ h => by cases h) fun _ _ h => by cases h
    · rw [optimized, wellScoped, hscoped, hcolumns]
      exact hitems
    · rw [optimized, columnsOf, columnsOf, hcolumns]
  | sort input keys ih =>
    obtain ⟨hinput, hkeys⟩ := Bool.and_eq_true_iff.mp h
    obtain ⟨hscoped, hcolumns, -⟩ := ih hinput
    refine staysScoped_of_columns ?_ hcolumns (fun _ _ h => by cases h) fun _ _ h => by cases h
    rw [optimized, wellScoped, hscoped, hcolumns]
    exact hkeys
  | expand input edgeLabel direction targetLabels edgeVar targetVar ih =>
    obtain ⟨hscoped, hcolumns, -⟩ := ih h
    refine staysScoped_of_columns hscoped ?_ (fun _ _ h => by cases h) fun _ _ h => by cases h
    rw [optimized, columnsOf, columnsOf, hcolumns]
  | join left right ihl ihr =>
    obtain ⟨hleft, hright⟩ := Bool.and_eq_true_iff.mp h
    obtain ⟨hscopedLeft, hcolumnsLeft, -⟩ := ihl hleft
    obtain ⟨hscopedRight, hcolumnsRight, -⟩ := ihr hright
    refine staysScoped_of_columns ?_ ?_ (fun _ _ h => by cases h) fun _ _ h => by cases h
    · rw [optimized, wellScoped, hscopedLeft, hscopedRight]
      rfl
    · rw [optimized, columnsOf, columnsOf, hcolumnsLeft, hcolumnsRight]
  | limit input count offset ih | distinct input ih =>
    obtain ⟨hscoped, hcolumns, -⟩ := ih h
    exact staysScoped_of_columns hscoped hcolumns (fun _ _ h => by cases h) fun _ _ h => by cases h
  | scan | empty | indexScan => exact ⟨h, rfl, rfl⟩
  | _ => cases h

theorem findsAll_executePlan {plan : LogicalPlan} (h : wellScoped plan = true) :
    FindsAll (executePlan env graphId plan) := by
  intro ω db e he
  rw [run_executePlan] at he
  exact findsAll_executeNode (staysScoped_optimized db h).wellScoped ω db e he

end Plans

/-! ## Programs -/

section Programs

open SemanticAnalyzer QueryPlanner

/-- What a statement still needs once it is accepted, given the scope after it and the plan before it: what the
analyzer passes over resolves in the columns there, and so do the names in scope of what it looks at. -/
def StatementScoped (scope : List String) (input : Option LogicalPlan) : GqlStatement → Prop
  | .matchStmt m =>
    (∀ path ∈ m.paths, ∀ plan, planPath input m.graph path = .ok plan → wellScoped plan = true) ∧
    ∀ joined, planMatch { m with whereClause := none } input = .ok joined →
      resolvesOption (filterColumns joined) (outside scope) m.whereClause = true
  | .returnStmt r =>
    let columns := columnsOf (input.getD .empty)
    (∀ item ∈ r.items, itemResolves columns (outside scope) item.expression = true) ∧
    ∀ keys ∈ r.orderBy, ∀ key ∈ keys, resolves columns never (resolveOrderAlias key.expression r.items) = true
  | _ => False

/-- The same of the statements of a program, one after the other. -/
def ProgramScoped : List String → Option LogicalPlan → List GqlStatement → Prop
  | _, _, [] => True
  | scope, input, stmt :: stmts => ∀ scope' plan,
    analyzeStatement scope stmt = .ok scope' → planStatement stmt input = .ok plan →
      StatementScoped scope' input stmt ∧ ProgramScoped scope' (some plan) stmts

/-- A checked item resolves once its names in scope do. -/
theorem itemResolves_of_checked {columns scope : List String} {e : Expression}
    (hcheck : checkExpression scope e = .ok ()) (h : itemResolves columns (outside scope) e = true) :
    itemResolves columns never e = true := by
  cases e with
  | aggregate function distinct arg =>
    cases function with
    | count | stdDev | percentile => rfl
    | sum | avg | min | max | collect => exact resolves_of_checked _ hcheck h
  | _ => exact resolves_of_checked _ hcheck h

theorem checkExpression_of_mem {scope : List String} {es : List Expression} (h : checkAll scope es = .ok ())
    {e : Expression} (he : e ∈ es) : checkExpression scope e = .ok () := by
  induction es with
  | nil => cases he
  | cons e' es ih =>
    rw [checkAll, unit_bind_eq_ok] at h
    rcases List.mem_cons.mp he with rfl | he
    · exact h.1
    · exact ih h.2 he

theorem wellScoped_foldl_join {first : LogicalPlan} {rest : List LogicalPlan} (hfirst : wellScoped first = true)
    (hrest : ∀ p ∈ rest, wellScoped p = true) : wellScoped (rest.foldl .join first) = true := by
  induction rest generalizing first with
  | nil => exact hfirst
  | cons p rest ih =>
    obtain ⟨hp, hrest⟩ := List.forall_mem_cons.mp hrest
    refine ih ?_ hrest
    rw [wellScoped, hfirst, hp]
    rfl

theorem wellScoped_planMatch {scope scope' : List String} {input : Option LogicalPlan} {m : MatchStatement}
    {plan : LogicalPlan} (hanalyze : analyzeMatch scope m = .ok scope')
    (hscoped : StatementScoped scope' input (.matchStmt m)) (hplan : planMatch m input = .ok plan) :
    wellScoped plan = true := by
  obtain ⟨hpaths, hwhere⟩ := hscoped
  obtain ⟨scans, hscans, hplan⟩ := Except.bind_eq_ok.mp hplan
  have hall : ∀ p ∈ scans, wellScoped p = true := by
    intro p hp
    obtain ⟨path, hpath, hp⟩ := List.exists_of_mem_mapM hscans hp
    exact hpaths path hpath p hp
  cases scans with
  | nil => cases hplan
  | cons first rest =>
    obtain ⟨hfirst, hrest⟩ := List.forall_mem_cons.mp hall
    have hjoined := wellScoped_foldl_join hfirst hrest
    have hjoin : planMatch { m with whereClause := none } input = .ok (rest.foldl .join first) := by
      rw [planMatch]
      show (List.mapM _ m.paths >>= _) = _
      rw [hscans]
      rfl
    have hcondition := hwhere _ hjoin
    obtain ⟨bound, -, hanalyze⟩ := Except.bind_eq_ok.mp hanalyze
    obtain ⟨⟨⟩, hcheck, hscope⟩ := Except.bind_eq_ok.mp hanalyze
    cases hscope
    cases hclause : m.whereClause with
    | none =>
      rw [hclause] at hplan
      cases hplan
      exact hjoined
    | some condition =>
      rw [hclause] at hplan hcondition hcheck
      cases hplan
      rw [checkOption] at hcheck
      rw [resolvesOption] at hcondition
      rw [wellScoped, hjoined, resolves_of_checked condition hcheck hcondition]
      rfl

theorem wellScoped_applyLimitOffset {plan : LogicalPlan} (h : wellScoped plan = true)
    (clause : Option LimitOffsetClause) : wellScoped (applyLimitOffset plan clause) = true := by
  cases clause with
  | none => exact h
  | some lo => exact h

theorem wellScoped_planReturn {scope : List String} {input : Option LogicalPlan} {r : ReturnStatement}
    (hinput : ∀ plan ∈ input, wellScoped plan = true) (hanalyze : analyzeReturn scope r = .ok ())
    (hscoped : StatementScoped scope input (.returnStmt r)) : wellScoped (planReturn r input) = true := by
  obtain ⟨hitems, hkeys⟩ := hscoped
  have hbase : wellScoped (input.getD .empty) = true := by
    cases input with
    | none => rfl
    | some plan => exact hinput plan rfl
  have hproject : ∀ sorted, wellScoped sorted = true → columnsOf sorted = columnsOf (input.getD .empty) →
      wellScoped (.project sorted (r.items.map (·.expression)) (r.items.map (·.aliasName))) = true := by
    intro sorted hsorted hcolumns
    rw [wellScoped, hsorted, hcolumns, Bool.true_and, List.all_eq_true]
    intro e he
    obtain ⟨item, hitem, rfl⟩ := List.mem_map.mp he
    exact itemResolves_of_checked (checkExpression_of_mem hanalyze he) (hitems item hitem)
  unfold planReturn
  apply wellScoped_applyLimitOffset
  have hsort : ∀ keys, r.orderBy = some keys → wellScoped (.sort (input.getD .empty)
      (keys.map fun i => (resolveOrderAlias i.expression r.items, i.direction))) = true := by
    intro keys horder
    rw [wellScoped, hbase, Bool.true_and, List.all_eq_true]
    intro key hkey
    obtain ⟨item, hitem, rfl⟩ := List.mem_map.mp hkey
    exact hkeys keys horder item hitem
  cases horder : r.orderBy with
  | none => cases r.distinct <;> exact hproject _ hbase rfl
  | some keys => cases r.distinct <;> exact hproject _ (hsort keys horder) rfl

theorem wellScoped_planFrom {stmts : List GqlStatement} {scope scope' : List String} {input : Option LogicalPlan}
    {result : Option LogicalPlan} (hinput : ∀ plan ∈ input, wellScoped plan = true)
    (hanalyze : analyzeFrom scope stmts = .ok scope') (hscoped : ProgramScoped scope input stmts)
    (hplan : planFrom input stmts = .ok result) : ∀ plan ∈ result, wellScoped plan = true := by
  induction stmts generalizing scope input with
  | nil =>
    cases hplan
    exact hinput
  | cons stmt stmts ih =>
    obtain ⟨plan, hstmt, hplan⟩ := Except.bind_eq_ok.mp hplan
    rw [analyzeFrom, List.foldlM_cons] at hanalyze
    obtain ⟨scope₁, hanalyzed, hanalyze⟩ := Except.bind_eq_ok.mp hanalyze
    obtain ⟨hhere, hrest⟩ := hscoped scope₁ plan hanalyzed hstmt
    refine ih ?_ hanalyze hrest hplan
    intro p hp
    cases hp
    cases stmt with
    | matchStmt m => exact wellScoped_planMatch hanalyzed hhere hstmt
    | returnStmt r =>
      cases hstmt
      obtain ⟨⟨⟩, hreturn, hscope⟩ := Except.bind_eq_ok.mp hanalyzed
      cases hscope
      exact wellScoped_planReturn hinput hreturn hhere
    | _ => exact hhere.elim

/-- **Accepted programs and unknown identifiers.** A program of `MATCH` and `RETURN` statements that the analyzer
accepts and whose statements are scoped never fails with an unknown identifier, on any store. -/
theorem accepted_finds_identifiers {program : GqlProgram} {plan : LogicalPlan}
    (haccepted : analyze program = .ok ()) (hscoped : ProgramScoped [] none program.statements)
    (hplan : QueryPlanner.plan program = .ok plan) (ω : Stream' Draw) (db : Db) (name : String) :
    ((executePlan env graphId plan).run ω db).result ≠ .error (.expressionError ("unknown identifier: " ++ name)) := by
  obtain ⟨scope, hanalyze, -⟩ := Except.bind_eq_ok.mp haccepted
  obtain ⟨result, hresult, hplan⟩ := Except.bind_eq_ok.mp hplan
  have hall := wellScoped_planFrom (fun _ h => by cases h) hanalyze hscoped hresult
  have hwell : wellScoped plan = true := by
    cases hplan
    cases result with
    | none => rfl
    | some p => exact hall p rfl
  intro h
  exact findsAll_executePlan hwell ω db _ h ⟨name, rfl⟩

/-- `MATCH (n) RETURN n.age AS x ORDER BY x`. -/
def sortedByAlias : GqlProgram :=
  ⟨[.matchStmt ⟨none, [⟨[.node ⟨some "n", [], []⟩]⟩], none⟩,
    .returnStmt ⟨false, [⟨.propertyAccess (.identifier "n") "age", some "x"⟩],
      some [⟨.identifier "x", .asc⟩], none⟩]⟩

theorem programScoped_sortedByAlias : ProgramScoped [] none sortedByAlias.statements := by
  intro scope plan hscope hplan
  cases hscope
  cases hplan
  refine ⟨⟨?_, ?_⟩, ?_⟩
  · intro path hpath plan hplan
    cases List.mem_singleton.mp hpath
    cases hplan
    rfl
  · intro joined hjoined
    cases hjoined
    rw [resolvesOption]
  · intro scope' plan' hscope' hplan'
    cases hscope'
    cases hplan'
    refine ⟨⟨?_, ?_⟩, trivial⟩
    · intro item hitem
      cases List.mem_singleton.mp hitem
      decide
    · intro keys hkeys key hkey
      cases hkeys
      cases List.mem_singleton.mp hkey
      decide

theorem accepted_finds_identifiers_alias :
    ((executePlan (sampleEnv sampleBincode) sampleGraph
      (.project (.sort (.scan [] none (some "n")) [(.propertyAccess (.identifier "n") "age", .asc)])
        [.propertyAccess (.identifier "n") "age"] [some "x"])).run sampleDraws Db.empty).result ≠
      .error (.expressionError ("unknown identifier: " ++ "x")) :=
  @accepted_finds_identifiers (sampleEnv sampleBincode) sampleGraph sortedByAlias _ (by decide)
    programScoped_sortedByAlias rfl sampleDraws Db.empty "x"

/-- `MATCH (a) MATCH (b) RETURN b`. -/
def continuedMatch : GqlProgram :=
  ⟨[.matchStmt ⟨none, [⟨[.node ⟨some "a", [], []⟩]⟩], none⟩,
    .matchStmt ⟨none, [⟨[.node ⟨some "b", [], []⟩]⟩], none⟩,
    .returnStmt ⟨false, [⟨.identifier "b", none⟩], none, none⟩]⟩

/-- The second `MATCH` uses the plan of the first one in place of a scan, and `b` is never bound. -/
theorem not_accepted_finds_identifiers :
    analyze continuedMatch = .ok () ∧
      QueryPlanner.plan continuedMatch = .ok (.project (.scan [] none (some "a")) [.identifier "b"] [none]) ∧
      ((executePlan (sampleEnv sampleBincode) sampleGraph
        (.project (.scan [] none (some "a")) [.identifier "b"] [none])).run sampleDraws
          (storeRun sampleBincode [.putNode person])).result =
        .error (.expressionError ("unknown identifier: " ++ "b")) := by
  refine ⟨?_, rfl, ?_⟩
  · decide
  · decide

end Programs

end Synaptica.Exec
