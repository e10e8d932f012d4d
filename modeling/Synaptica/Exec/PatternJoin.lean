import Synaptica.Exec.PropertyAccess

/-!
# Comma-separated patterns

`MATCH p₁, p₂` joins the rows of the two patterns on the columns that belong to a variable of both. The
columns of a variable are those of its properties, so the join compares the texts of properties and not
the nodes. On nodes without properties there is nothing to compare, and all rows meet.
-/

namespace Synaptica.Exec

open Gql Process Storage

/-! ## The plan of a pattern -/

/-- The names that a pattern writes. -/
def patternVars (p : PathPattern) : List String :=
  p.elements.filterMap fun
    | .node n => n.var
    | .edge e => e.var

/-- A scan, and over it filters and expand steps, that bind these names. -/
def IsPattern (names : List String) : LogicalPlan → Prop
  | .scan _ _ var => ∀ v ∈ var, v ∈ names
  | .filter input _ => IsPattern names input
  | .expand input _ _ _ edgeVar targetVar =>
    IsPattern names input ∧ (∀ v ∈ edgeVar, v ∈ names) ∧ ∀ v ∈ targetVar, v ∈ names
  | _ => False

section Plan

variable {names : List String}

theorem isPattern_applyInlinePropertyFilters {plan : LogicalPlan} (h : IsPattern names plan)
    (properties : List (String × Expression)) (var : Option String) :
    IsPattern names (QueryPlanner.applyInlinePropertyFilters plan properties var) := by
  unfold QueryPlanner.applyInlinePropertyFilters
  induction properties generalizing plan with
  | nil => exact h
  | cons p properties ih => exact @ih (.filter plan _) h

theorem IsPattern.expand {plan : LogicalPlan} (h : IsPattern names plan) {edgeVar targetVar : Option String}
    (hedge : ∀ v ∈ edgeVar, v ∈ names) (htarget : ∀ v ∈ targetVar, v ∈ names) (edgeLabel : String)
    (direction : Direction) (targetLabels : List String) :
    IsPattern names (.expand plan edgeLabel direction targetLabels edgeVar targetVar) :=
  ⟨h, hedge, htarget⟩

theorem isPattern_expandPath {plan : LogicalPlan} (h : IsPattern names plan) {edges : List EdgePattern}
    {nodes : List NodePattern} (hedges : ∀ e ∈ edges, ∀ v ∈ e.var, v ∈ names)
    (hnodes : ∀ n ∈ nodes, ∀ v ∈ n.var, v ∈ names) :
    IsPattern names (QueryPlanner.expandPath plan edges nodes) := by
  induction edges generalizing plan nodes with
  | nil => exact h
  | cons edge edges ih =>
    have hedge := hedges edge List.mem_cons_self
    have hrest : ∀ e ∈ edges, ∀ v ∈ e.var, v ∈ names := fun e he => hedges e (List.mem_cons_of_mem _ he)
    cases nodes with
    | nil =>
      apply ih _ hrest hnodes
      exact isPattern_applyInlinePropertyFilters (h.expand hedge (by simp) _ _ _) _ _
    | cons node nodes =>
      apply ih _ hrest fun n hn => hnodes n (List.mem_cons_of_mem _ hn)
      apply isPattern_applyInlinePropertyFilters
      apply isPattern_applyInlinePropertyFilters
      exact h.expand hedge (hnodes node List.mem_cons_self) _ _ _

/-- The plan of a pattern binds the names of the pattern. -/
theorem isPattern_planPath {graph : Option String} {p : PathPattern} {plan : LogicalPlan}
    (h : QueryPlanner.planPath none graph p = .ok plan) : IsPattern (patternVars p) plan := by
  have hnodes : ∀ n ∈ p.elements.filterMap PatternElement.asNode, ∀ v ∈ n.var, v ∈ patternVars p := by
    intro n hn v hv
    obtain ⟨element, helement, hnode⟩ := List.mem_filterMap.mp hn
    refine List.mem_filterMap.mpr ⟨element, helement, ?_⟩
    cases element <;> cases hnode
    exact hv
  have hedges : ∀ e ∈ p.elements.filterMap PatternElement.asEdge, ∀ v ∈ e.var, v ∈ patternVars p := by
    intro e he v hv
    obtain ⟨element, helement, hedge⟩ := List.mem_filterMap.mp he
    refine List.mem_filterMap.mpr ⟨element, helement, ?_⟩
    cases element <;> cases hedge
    exact hv
  unfold QueryPlanner.planPath at h
  dsimp only at h
  split at h
  · cases h
    apply isPattern_applyInlinePropertyFilters
    intro v hv
    obtain ⟨n, hn, hvar⟩ := List.mem_filterMap.mp (List.mem_of_mem_head? hv)
    exact hnodes n hn v hvar
  · split at h
    · cases h
    · rename_i source targets hsplit
      cases h
      rw [hsplit] at hnodes
      apply isPattern_expandPath _ hedges fun n hn => hnodes n (List.mem_cons_of_mem _ hn)
      apply isPattern_applyInlinePropertyFilters
      exact hnodes source List.mem_cons_self

theorem readOnly_of_isPattern {plan : LogicalPlan} (h : IsPattern names plan) : plan.readOnly := by
  induction plan with
  | scan => rfl
  | filter input _ ih => exact ih h
  | expand input _ _ _ _ _ ih => exact ih h.1
  | _ => exact h.elim

end Plan

/-! ## The columns of a pattern -/

/-- Each such column belongs to a name of the pattern that is bound to an entity in every row, and stands
there once. -/
structure ResultSet.Blocks (names : List String) (rs : ResultSet) : Prop where
  owner : ∀ column ∈ rs.columns, JoinColumn column → ∃ v k, DotFree v ∧ column = dotted v k ∧ v ∈ names ∧
    ∀ r ∈ rs.records, ∃ x, isEntity x ∧ r.get v = some x
  nodup : (rs.columns.filter (JoinColumn ·)).Nodup

section Columns

theorem not_joinColumn_of_dotFree {name : String} (h : DotFree name) : ¬ JoinColumn name := fun hj => hj.1 h

/-- A name that is taken by the internal columns has no columns that a join compares. -/
theorem not_joinColumn_dotted {v : String} (h : v.startsWith "__") (k : String) : ¬ JoinColumn (dotted v k) := by
  rintro ⟨-, hnot⟩
  apply hnot
  simp only [String.startsWith_string_iff, toList_dotted] at h ⊢
  exact h.trans (List.prefix_append _ _)

theorem nodup_variableColumns {keys : List String} (hkeys : keys.Nodup) (var : Option String) :
    (variableColumns keys var).Nodup := by
  cases var with
  | none => exact List.nodup_nil
  | some v =>
    refine List.nodup_cons.mpr ⟨?_, hkeys.map (dotted_right_injective v)⟩
    intro hmem
    obtain ⟨k, -, hk⟩ := List.mem_map.mp hmem
    exact ne_dotted_self v k hk.symm

/-- The draw orders the keys, each once. -/
theorem nodup_order_keySet (draw : Draw) (props : List Properties) : (draw.order (keySet props)).Nodup :=
  (draw.perm _).nodup_iff.mpr (List.nodup_dedup _)

theorem blocks_nodeResultSet {names keys : List String} {var : Option String} {nodes : List Node}
    (hkeys : keys.Nodup) (htidy : ∀ k ∈ keys, DotFree k ∧ k ∉ var) (hvar : ∀ v ∈ var, DotFree v)
    (hnames : ∀ v ∈ var, v ∈ names) : (nodeResultSet keys var nodes).Blocks names := by
  have hbare : ∀ column ∈ ["__node_id", "__labels"] ++ keys, ¬ JoinColumn column := by
    intro column hcolumn
    apply not_joinColumn_of_dotFree
    rcases List.mem_append.mp hcolumn with hinternal | hkey
    · rcases List.mem_pair.mp hinternal with rfl | rfl <;> decide
    · exact (htidy column hkey).1
  constructor
  · intro column hcolumn hjoin
    rcases List.mem_append.mp hcolumn with hbefore | hblock
    · exact absurd hjoin (hbare column hbefore)
    cases var with
    | none => cases hblock
    | some v =>
      rcases mem_variableColumns.mp hblock with rfl | ⟨k, -, rfl⟩
      · exact absurd hjoin (not_joinColumn_of_dotFree (hvar _ rfl))
      refine ⟨v, k, hvar v rfl, rfl, hnames v rfl, fun r hr => ?_⟩
      obtain ⟨values, hvalues, rfl⟩ := List.mem_map.mp hr
      obtain ⟨node, -, rfl⟩ := List.mem_map.mp hvalues
      refine ⟨nodeValue node, rfl, ?_⟩
      show (⟨nodeColumns keys (some v), nodeRow keys (some v) node⟩ : Record).get v = _
      have hinternal : ¬ v.startsWith "__" := fun h => not_joinColumn_dotted h k hjoin
      have hne : ∀ name : String, name.startsWith "__" → v ≠ name := by
        rintro name hname rfl
        exact hinternal hname
      rw [get_nodeRow keys (some v) node (hne _ (by decide +kernel)) (hne _ (by decide +kernel)),
        if_neg fun hmem => (htidy v hmem).2 rfl, get_blockRow_self]
      rfl
  · show (List.filter _ (["__node_id", "__labels"] ++ keys ++ variableColumns keys var)).Nodup
    rw [List.filter_append, List.filter_eq_nil_iff.mpr fun c hc => by simpa using hbare c hc,
      List.nil_append]
    exact (nodup_variableColumns hkeys var).filter _

/-- The rows keep what they bound, and bind the new names. -/
theorem owner_expandRecord {columns edgeKeys targetKeys : List String}
    {edgeVar targetVar : Option String} {row : ExpandRow} (htidy : ExpandTidy columns edgeVar targetVar)
    (hwidth : row.sourceValues.length = columns.length) (hid : "__node_id" ∈ columns) {v : String}
    (hv : DotFree v) (hne : v ≠ "__node_id")
    (hbound : (∃ x, isEntity x ∧ (⟨columns, row.sourceValues⟩ : Record).get v = some x) ∨ v ∈ edgeVar ∨
      v ∈ targetVar) :
    ∃ x, isEntity x ∧ (expandRecord columns edgeKeys targetKeys edgeVar targetVar row).get v = some x := by
  rw [get_expandRecord_of_ne hwidth hid (.inl hne)]
  rcases hbound with ⟨x, hx, hget⟩ | hedge | htarget
  · exact ⟨x, hx, by rw [hget, Option.some_or, Option.some_or]⟩
  · have hnone := (Record.get_eq_none_iff hwidth).mpr (htidy.names v (.inl hedge)).2.1
    refine ⟨edgeValue row.edge, rfl, ?_⟩
    rw [hnone, Option.none_or, hedge, get_blockRow_self, Option.some_or]
  · have hnone := (Record.get_eq_none_iff hwidth).mpr (htidy.names v (.inr htarget)).2.1
    have hedge : (blockRow edgeKeys edgeVar (edgeValue row.edge)
        (propertyOrNull row.edge.properties)).get v = none := by
      refine get_blockRow_of_dotFree hv fun u hu heq => ?_
      exact htidy.ne u hu (heq ▸ htarget)
    refine ⟨nodeValue row.target, rfl, ?_⟩
    rw [hnone, hedge, Option.none_or, Option.none_or, htarget, get_blockRow_self]

/-- The columns of an expand step: those of its input, and the blocks of the new names. -/
theorem nodup_expandColumns {columns edgeKeys targetKeys : List String} {edgeVar targetVar : Option String}
    (htidy : ExpandTidy columns edgeVar targetVar) (hcolumns : (columns.filter (JoinColumn ·)).Nodup)
    (hedgeKeys : edgeKeys.Nodup) (htargetKeys : targetKeys.Nodup) :
    ((expandColumns columns edgeKeys targetKeys edgeVar targetVar).filter (JoinColumn ·)).Nodup := by
  -- a column of a block that a join compares is a property of the new name
  have hblock : ∀ {keys : List String} {var : Option String} {column : String},
      (∀ v ∈ var, v ∈ edgeVar ∨ v ∈ targetVar) → column ∈ (variableColumns keys var).filter (JoinColumn ·) →
      ∃ v k, v ∈ var ∧ column = dotted v k := by
    intro keys var column hvar hmem
    obtain ⟨hmem, hjoin⟩ := List.mem_filter.mp hmem
    cases var with
    | none => cases hmem
    | some v =>
      rcases mem_variableColumns.mp hmem with rfl | ⟨k, -, rfl⟩
      · exact absurd (of_decide_eq_true hjoin) (not_joinColumn_of_dotFree (htidy.names _ (hvar _ rfl)).1)
      · exact ⟨v, k, rfl, rfl⟩
  have hedge := @hblock edgeKeys edgeVar
  have htarget := @hblock targetKeys targetVar
  rw [expandColumns, List.filter_append, List.filter_append, List.nodup_append, List.nodup_append]
  refine ⟨⟨hcolumns, (nodup_variableColumns hedgeKeys _).filter _, ?_⟩,
    (nodup_variableColumns htargetKeys _).filter _, ?_⟩
  · rintro column hold _ hnew rfl
    obtain ⟨v, k, hv, rfl⟩ := hedge (fun v hv => .inl hv) hnew
    exact (htidy.names v (.inl hv)).2.2 k (List.mem_of_mem_filter hold)
  · rintro column hold _ hnew rfl
    obtain ⟨v, k, hv, rfl⟩ := htarget (fun v hv => .inr hv) hnew
    rcases List.mem_append.mp hold with hold | hold
    · exact (htidy.names v (.inr hv)).2.2 k (List.mem_of_mem_filter hold)
    · obtain ⟨u, j, hu, heq⟩ := hedge (fun v hv => .inl hv) hold
      obtain ⟨rfl, -⟩ := (dotted_inj (htidy.names v (.inr hv)).1 (htidy.names u (.inl hu)).1).mp heq
      exact htidy.ne v hu hv

variable {env : Env} {graphId : GraphId}

theorem blocks_expandResult {names : List String} {input rs : ResultSet} {edgeLabel : String}
    {direction : Direction} {targetLabels : List String} {edgeVar targetVar : Option String} {db : Db}
    {draws : Draw × Draw} (hrect : input.Rectangular) (hinput : input.Blocks names)
    (htidy : ExpandTidy input.columns edgeVar targetVar)
    (hnames : ∀ v, v ∈ edgeVar ∨ v ∈ targetVar → v ∈ names)
    (h : expandResult env graphId input edgeLabel direction targetLabels edgeVar targetVar db draws =
      .ok rs) : rs.Blocks names := by
  simp only [expandResult, Except.bind_eq_ok, Except.pure_eq_ok] at h
  obtain ⟨rows, hrows, rfl⟩ := h
  obtain ⟨hall, hfrom⟩ := expandedRows_eq_ok hrows
  constructor
  · intro column hcolumn hjoin
    have hcases : ∃ v k, DotFree v ∧ column = dotted v k ∧ v ∈ names ∧
        ((∀ r ∈ input.records, ∃ x, isEntity x ∧ r.get v = some x) ∨ v ∈ edgeVar ∨ v ∈ targetVar) := by
      rcases List.mem_append.mp hcolumn with hold | htarget
      · rcases List.mem_append.mp hold with hold | hedge
        · obtain ⟨v, k, hv, rfl, hvnames, hbound⟩ := hinput.owner column hold hjoin
          exact ⟨v, k, hv, rfl, hvnames, .inl hbound⟩
        · cases edgeVar with
          | none => cases hedge
          | some v =>
            have hv := (htidy.names v (.inl rfl)).1
            rcases mem_variableColumns.mp hedge with rfl | ⟨k, -, rfl⟩
            · exact absurd hjoin (not_joinColumn_of_dotFree hv)
            · exact ⟨v, k, hv, rfl, hnames v (.inl rfl), .inr (.inl rfl)⟩
      · cases targetVar with
        | none => cases htarget
        | some v =>
          have hv := (htidy.names v (.inr rfl)).1
          rcases mem_variableColumns.mp htarget with rfl | ⟨k, -, rfl⟩
          · exact absurd hjoin (not_joinColumn_of_dotFree hv)
          · exact ⟨v, k, hv, rfl, hnames v (.inr rfl), .inr (.inr rfl)⟩
    obtain ⟨v, k, hv, rfl, hvnames, hbound⟩ := hcases
    refine ⟨v, k, hv, rfl, hvnames, fun o ho => ?_⟩
    rw [records_expandResultSet] at ho
    obtain ⟨row, hrow, rfl⟩ := List.mem_map.mp ho
    obtain ⟨r, hr, hop, rfl⟩ := hfrom row hrow
    obtain ⟨hbelow, hwidth⟩ := hrect r hr
    obtain ⟨hops, hhops⟩ := hall r hr
    obtain ⟨s, u, hid, -⟩ := exists_id_of_hopsOf hhops
    have hcolumn : "__node_id" ∈ input.columns := by
      rw [← hbelow]
      exact Record.mem_columns_of_get hid
    have hne : v ≠ "__node_id" := by
      rintro rfl
      exact not_joinColumn_dotted (by decide +kernel) k hjoin
    refine owner_expandRecord htidy hwidth hcolumn hv hne (hbound.imp_left fun hold => ?_)
    show ∃ x, isEntity x ∧ (⟨input.columns, r.values⟩ : Record).get v = some x
    rw [← hbelow]
    exact hold r hr
  · exact nodup_expandColumns htidy hinput.nodup (nodup_order_keySet _ _) (nodup_order_keySet _ _)

/-- The rows of a pattern, by induction on its plan. -/
theorem blocks_executeNode {names : List String} {plan : LogicalPlan} (hpattern : IsPattern names plan)
    {ω : Stream' Draw} {db : Db} {rs : ResultSet} (htidy : Tidy env graphId plan ω db)
    (h : resultOf env graphId plan ω db = .ok rs) : rs.Blocks names := by
  have hrect := fun p ω db rs h => answersRows_executeNode env graphId p ω db rs h
  induction plan generalizing ω db rs with
  | scan labels graph var =>
    obtain ⟨hvar, hkeys⟩ := htidy
    rw [resultOf, executeNode, result_execScan, scanResult] at h
    simp only [Except.bind_eq_ok, Except.pure_eq_ok] at h
    obtain ⟨nodes, hnodes, rfl⟩ := h
    refine blocks_nodeResultSet (nodup_order_keySet _ _) (fun k hk => ?_) hvar hpattern
    obtain ⟨n, hn, hmem⟩ := exists_of_mem_order hk
    cases hscan : scanWith env graphId db labels with
    | error e =>
      rw [hscan] at hnodes
      cases hnodes
    | ok ns =>
      rw [hscan] at hnodes
      cases hnodes
      exact hkeys _ hscan n hn k hmem
  | filter input predicate ih =>
    obtain ⟨input', hinput, h⟩ := result_bind_eq_ok.mp h
    have h : execFilter env input' predicate = .ok rs := h
    simp only [execFilter, Except.bind_eq_ok, Except.pure_eq_ok] at h
    obtain ⟨kept, hkept, rfl⟩ := h
    have hblocks := ih hpattern htidy hinput
    refine ⟨fun column hcolumn hjoin => ?_, hblocks.nodup⟩
    obtain ⟨v, k, hv, rfl, hvnames, hbound⟩ := hblocks.owner column hcolumn hjoin
    refine ⟨v, k, hv, rfl, hvnames, fun o ho => ?_⟩
    obtain ⟨values, hvalues, rfl⟩ := List.mem_map.mp ho
    obtain ⟨r, hr, rfl⟩ := List.mem_map.mp hvalues
    have hmem := mem_of_mem_filterRecords env hkept r hr
    rw [← (hrect _ _ _ _ hinput r hmem).1]
    exact hbound r hmem
  | expand input edgeLabel direction targetLabels edgeVar targetVar ih =>
    obtain ⟨input', hinput, h⟩ := result_bind_eq_ok.mp h
    rw [result_execExpand] at h
    obtain ⟨hbelow, hedge, htarget⟩ := hpattern
    refine blocks_expandResult (hrect _ _ _ _ hinput) (ih hbelow htidy.1 hinput) (htidy.2 _ hinput) ?_ h
    exact fun v hv => hv.elim (hedge v) (htarget v)
  | _ => exact hpattern.elim

end Columns

/-! ## The join of two patterns -/

/-- The names that both patterns write. -/
def sharedVars (p₁ p₂ : PathPattern) : List String := (patternVars p₁).filter (· ∈ patternVars p₂)

/-- Every name is bound to the same entity in both rows: an entity is stored once under its id. -/
def SameEntities (vars : List String) (l r : Record) : Prop := ∀ v ∈ vars, l.get v = r.get v

instance (vars : List String) (l r : Record) : Decidable (SameEntities vars l r) :=
  inferInstanceAs (Decidable (∀ v ∈ vars, _))

/-- The debug text of a column. -/
def columnText (env : Env) (r : Record) (name : String) : String :=
  ((r.get name).getD .null).debug env.debug

/-- The rows do not differ in the text of any property that both sides have of a common name. -/
def Alike (env : Env) (left right : ResultSet) (l r : Record) : Prop :=
  ∀ name ∈ left.columns, name ∈ right.columns → JoinColumn name →
    columnText env r name = columnText env l name

instance (env : Env) (left right : ResultSet) (l r : Record) : Decidable (Alike env left right l r) :=
  inferInstanceAs (Decidable (∀ name ∈ left.columns, _))

variable (env : Env) (graphId : GraphId)

/-- `MATCH p₁, p₂` returns the combinations of a row of `p₁` and a row of `p₂` in which every common name
is bound to the same entity, each once. -/
def Joins (graph : Option String) (p₁ p₂ : PathPattern) (ω : Stream' Draw) (db : Db) (rs₁ rs₂ : ResultSet) :
    Prop :=
  ∃ plan out pairs, QueryPlanner.planStatement (.matchStmt ⟨graph, [p₁, p₂], none⟩) none = .ok plan ∧
    resultOf env graphId plan ω db = .ok out ∧
    pairs.Perm ((rs₁.records ×ˢ rs₂.records).filter fun p => SameEntities (sharedVars p₁ p₂) p.1 p.2) ∧
    List.Forall₂ (fun p o => Combines p.1 p.2 o) pairs out.records

variable {env graphId}

section Join

variable {names names₁ names₂ : List String} {left right : ResultSet} {l r : Record}

/-- A compared column stands at one position of the left side. -/
theorem ResultSet.Blocks.idxOf?_eq (h : left.Blocks names) {name : String} {i : Nat}
    (hi : left.columns[i]? = some name) (hjoin : JoinColumn name) : left.columns.idxOf? name = some i := by
  obtain ⟨hlt, hname⟩ := List.getElem?_eq_some_iff.mp hi
  refine List.idxOf?_eq_some_iff.mpr ⟨hlt, hname, fun j hj hsame => ?_⟩
  have htwice : [name, name].Sublist left.columns := by
    rw [← List.duplicate_iff_sublist, List.duplicate_iff_exists_distinct_get]
    exact ⟨⟨j, hj.trans hlt⟩, ⟨i, hlt⟩, hj, hsame.symm, hname.symm⟩
  have hpair := (htwice.filter (JoinColumn ·)).nodup h.nodup
  simp [hjoin] at hpair

theorem meets_iff_alike (hleft : left.Blocks names) (hl : l.columns = left.columns)
    (hr : r.columns = right.columns) : Meets env left right l r ↔ Alike env left right l r := by
  have hget : ∀ {row : Record} {columns : List String} {name : String} {i : Nat}, row.columns = columns →
      columns.idxOf? name = some i → textAt env row i = columnText env row name := by
    rintro row _ name i rfl hi
    rw [columnText, Record.get, hi]
    rfl
  rw [meets_iff]
  constructor
  · intro h name hmeml hmemr hjoin
    obtain ⟨i, hi⟩ := List.mem_iff_getElem?.mp hmeml
    obtain ⟨j, hj⟩ := Option.isSome_iff_exists.mp (List.isSome_idxOf?.mpr hmemr)
    have hshared := h (i, j) (mem_sharedColumns.mpr ⟨name, hi, hj, hjoin⟩)
    rwa [hget hr hj, hget hl (hleft.idxOf?_eq hi hjoin)] at hshared
  · rintro h ⟨i, j⟩ hs
    obtain ⟨name, hi, hj, hjoin⟩ := mem_sharedColumns.mp hs
    rw [hget hr hj, hget hl (hleft.idxOf?_eq hi hjoin)]
    exact h name (List.mem_of_getElem? hi) (List.isSome_idxOf?.mp (by rw [hj]; rfl)) hjoin

/-- Rows that bind the common names to the same entities have the same properties of them. -/
theorem alike_of_sameEntities (hleft : left.Blocks names₁) (hright : right.Blocks names₂)
    (hlf : left.Faithful) (hrf : right.Faithful) (hlrect : left.Rectangular) (hrrect : right.Rectangular)
    (hl : l ∈ left.records) (hr : r ∈ right.records)
    (h : ∀ v ∈ names₁, v ∈ names₂ → l.get v = r.get v) : Alike env left right l r := by
  intro name hmeml hmemr hjoin
  obtain ⟨v, k, hv, rfl, hv₁, hboundl⟩ := hleft.owner name hmeml hjoin
  obtain ⟨w, j, hw, hname, hw₂, -⟩ := hright.owner _ hmemr hjoin
  obtain ⟨rfl, rfl⟩ := (dotted_inj hv hw).mp hname
  obtain ⟨x, hx, hget⟩ := hboundl l hl
  have hsome : ∀ {rs : ResultSet} {row : Record}, rs.Rectangular → row ∈ rs.records →
      dotted v k ∈ rs.columns → ∃ y, row.get (dotted v k) = some y := by
    intro rs row hrect hrow hmem
    obtain ⟨hbelow, hwidth⟩ := hrect row hrow
    rw [← Option.ne_none_iff_exists']
    intro hnone
    have hrow : row = ⟨row.columns, row.values⟩ := rfl
    rw [hrow, Record.get_eq_none_iff (by rw [hwidth, hbelow]), hbelow] at hnone
    exact hnone hmem
  obtain ⟨y, hy⟩ := hsome hlrect hl hmeml
  obtain ⟨z, hz⟩ := hsome hrrect hr hmemr
  rw [columnText, columnText, hy, hz, hlf l hl v k hv x y hx hget hy,
    hrf r hr v k hv x z hx (h v hv₁ hw₂ ▸ hget) hz]

end Join

section Statement

variable {graph : Option String} {p₁ p₂ : PathPattern} {plan₁ plan₂ : LogicalPlan} {ω : Stream' Draw}
  {db : Db} {rs₁ rs₂ : ResultSet}

theorem planStatement_pair (h₁ : QueryPlanner.planPath none graph p₁ = .ok plan₁)
    (h₂ : QueryPlanner.planPath none graph p₂ = .ok plan₂) :
    QueryPlanner.planStatement (.matchStmt ⟨graph, [p₁, p₂], none⟩) none = .ok (.join plan₁ plan₂) := by
  show QueryPlanner.planMatch _ _ = _
  simp only [QueryPlanner.planMatch, List.mapM_cons, List.mapM_nil, h₁, h₂]
  rfl

/-- The second pattern is matched on the store that the first one has read. -/
theorem resultOf_join (h₁ : QueryPlanner.planPath none graph p₁ = .ok plan₁)
    (hrun₁ : resultOf env graphId plan₁ ω db = .ok rs₁)
    (hrun₂ : resultOf env graphId plan₂ ((executeNode env graphId plan₁).run ω db).rest db = .ok rs₂) :
    resultOf env graphId (.join plan₁ plan₂) ω db = .ok (execJoin env rs₁ rs₂) := by
  have hstate := (reads_executeNode env graphId (readOnly_of_isPattern (isPattern_planPath h₁))).state_eq ω db
  refine result_bind_eq_ok.mpr ⟨rs₁, hrun₁, result_bind_eq_ok.mpr ⟨rs₂, ?_, rfl⟩⟩
  rw [hstate]
  exact hrun₂

/-- **Two patterns join on their common names** exactly when rows that bind one of them to different
entities differ in the text of a property that both sides have. -/
theorem joins_iff (h₁ : QueryPlanner.planPath none graph p₁ = .ok plan₁)
    (h₂ : QueryPlanner.planPath none graph p₂ = .ok plan₂) (htidy₁ : Tidy env graphId plan₁ ω db)
    (hrun₁ : resultOf env graphId plan₁ ω db = .ok rs₁)
    (htidy₂ : Tidy env graphId plan₂ ((executeNode env graphId plan₁).run ω db).rest db)
    (hrun₂ : resultOf env graphId plan₂ ((executeNode env graphId plan₁).run ω db).rest db = .ok rs₂) :
    Joins env graphId graph p₁ p₂ ω db rs₁ rs₂ ↔
      ∀ l ∈ rs₁.records, ∀ r ∈ rs₂.records, Alike env rs₁ rs₂ l r → SameEntities (sharedVars p₁ p₂) l r := by
  have hrect₁ := answersRows_executeNode env graphId _ _ _ _ hrun₁
  have hrect₂ := answersRows_executeNode env graphId _ _ _ _ hrun₂
  have hblocks₁ := blocks_executeNode (isPattern_planPath h₁) htidy₁ hrun₁
  have hblocks₂ := blocks_executeNode (isPattern_planPath h₂) htidy₂ hrun₂
  have hfaithful₁ := faithful_executeNode htidy₁ hrun₁
  have hfaithful₂ := faithful_executeNode htidy₂ hrun₂
  have hjoin := resultOf_join h₁ hrun₁ hrun₂
  have hrows := @forall₂_execJoin env _ _ hrect₁ hrect₂
  set meeting := (rs₁.records ×ˢ rs₂.records).filter fun p => Meets env rs₁ rs₂ p.1 p.2 with hmeeting
  set same := (rs₁.records ×ˢ rs₂.records).filter fun p => SameEntities (sharedVars p₁ p₂) p.1 p.2 with hsame
  have hmeets : ∀ p ∈ rs₁.records ×ˢ rs₂.records,
      (Meets env rs₁ rs₂ p.1 p.2 ↔ Alike env rs₁ rs₂ p.1 p.2) := by
    rintro ⟨l, r⟩ hp
    obtain ⟨hl, hr⟩ := List.mem_product.mp hp
    exact meets_iff_alike hblocks₁ (hrect₁ l hl).1 (hrect₂ r hr).1
  have hmeets_of_same : ∀ p ∈ rs₁.records ×ˢ rs₂.records, SameEntities (sharedVars p₁ p₂) p.1 p.2 →
      Meets env rs₁ rs₂ p.1 p.2 := by
    intro p hp hentities
    obtain ⟨hl, hr⟩ := List.mem_product.mp hp
    apply (hmeets p hp).mpr
    apply alike_of_sameEntities hblocks₁ hblocks₂ hfaithful₁ hfaithful₂ hrect₁ hrect₂ hl hr
    exact fun v hv₁ hv₂ => hentities v (List.mem_filter.mpr ⟨hv₁, by simpa using hv₂⟩)
  have hsub : same.Sublist meeting := by
    have hboth : same = meeting.filter fun p => SameEntities (sharedVars p₁ p₂) p.1 p.2 := by
      rw [hmeeting, List.filter_filter, hsame]
      refine List.filter_congr fun p hp => ?_
      by_cases hentities : SameEntities (sharedVars p₁ p₂) p.1 p.2
      · simp [hentities, hmeets_of_same p hp hentities]
      · simp [hentities]
    rw [hboth]
    exact List.filter_sublist
  constructor
  · rintro ⟨plan, out, pairs, hplan, hout, hperm, hcombines⟩ l hl r hr halike
    rw [planStatement_pair h₁ h₂] at hplan
    cases hplan
    rw [hjoin] at hout
    cases hout
    -- there are as many rows that meet as there are rows of the same entities
    have hlength : meeting.length = same.length := by
      rw [hrows.length_eq, ← hcombines.length_eq, hperm.length_eq]
    have hmem : (l, r) ∈ same := by
      rw [hsub.eq_of_length hlength.symm]
      have hp : (l, r) ∈ rs₁.records ×ˢ rs₂.records := List.mem_product.mpr ⟨hl, hr⟩
      exact List.mem_filter.mpr ⟨hp, decide_eq_true ((hmeets _ hp).mpr halike)⟩
    exact of_decide_eq_true (List.mem_filter.mp hmem).2
  · intro h
    refine ⟨_, _, same, planStatement_pair h₁ h₂, hjoin, .refl _, ?_⟩
    have heq : same = meeting := by
      refine List.filter_congr fun p hp => decide_eq_decide.mpr ⟨hmeets_of_same p hp, fun hmeet => ?_⟩
      obtain ⟨hl, hr⟩ := List.mem_product.mp hp
      exact h p.1 hl p.2 hr ((hmeets p hp).mp hmeet)
    rwa [heq]

end Statement

/-! ## Joining a second pattern on a friend -/

section Friends

/-- `(a)-[:KNOWS]->(b)`. -/
def knowsPattern : PathPattern := ⟨[.node (bareNode (some "a")), .edge knowsEdge, .node (bareNode (some "b"))]⟩

/-- `(v)`. -/
def singlePattern (v : String) : PathPattern := ⟨[.node (bareNode (some v))]⟩

/-- The rows of `(a)` where only one person has a name. -/
def namedRows : ResultSet :=
  let columns := ["__node_id", "__labels", "name", "a", "a.name"]
  ⟨columns, [
    ⟨columns, [.string named.id.uuid.toString, .list [.string "Person"], .string "Ann", nodeValue named,
      .string "Ann"]⟩,
    ⟨columns, [.string friend.id.uuid.toString, .list [.string "Person"], .null, nodeValue friend, .null]⟩]⟩

/-- `MATCH (a)-[:KNOWS]->(b), (a)`: the names tell the two nodes apart. -/
theorem joins_named : Joins (sampleEnv namedBincode) sampleGraph none knowsPattern (singlePattern "a")
    sampleDraws namedStore ⟨acquaintancesRow.columns, [acquaintancesRow]⟩ namedRows := by
  have hknows : QueryPlanner.planPath none none knowsPattern = .ok acquaintances := rfl
  have hsingle : QueryPlanner.planPath none none (singlePattern "a") = .ok (.scan [] none (some "a")) := rfl
  refine (joins_iff hknows hsingle tidy_acquaintances
    resultOf_acquaintances tidy_acquaintances.1 ?_).mpr ?_
  · decide
  · decide +kernel

/-- The row of `(a)-[:KNOWS]->(b)` on nodes without properties. -/
def knowingRows : ResultSet :=
  let columns := ["__node_id", "__labels", "a", "b"]
  ⟨columns, [⟨columns, [.string friend.id.uuid.toString, .list [.string "Person"], nodeValue person,
    nodeValue friend]⟩]⟩

/-- The rows of `(b)` there. -/
def bareRows : ResultSet :=
  let columns := ["__node_id", "__labels", "b"]
  ⟨columns, [person, friend].map fun n =>
    ⟨columns, [.string n.id.uuid.toString, .list [.string "Person"], nodeValue n]⟩⟩

/-- `MATCH (a)-[:KNOWS]->(b), (b)` on nodes without properties: the friend is combined with both nodes. -/
theorem not_joins_bare :
    resultOf (sampleEnv friendsBincode) sampleGraph acquaintances sampleDraws friends = .ok knowingRows ∧
    resultOf (sampleEnv friendsBincode) sampleGraph (.scan [] none (some "b"))
      ((executeNode (sampleEnv friendsBincode) sampleGraph acquaintances).run sampleDraws friends).rest
      friends = .ok bareRows ∧
    ¬ Joins (sampleEnv friendsBincode) sampleGraph none knowsPattern (singlePattern "b") sampleDraws friends
      knowingRows bareRows := by
  have hleft : resultOf (sampleEnv friendsBincode) sampleGraph acquaintances sampleDraws friends =
      .ok knowingRows := by
    decide +kernel
  have hright : resultOf (sampleEnv friendsBincode) sampleGraph (.scan [] none (some "b"))
      ((executeNode (sampleEnv friendsBincode) sampleGraph acquaintances).run sampleDraws friends).rest
      friends = .ok bareRows := by
    decide +kernel
  refine ⟨hleft, hright, ?_⟩
  rintro ⟨plan, out, pairs, hplan, hout, hperm, hcombines⟩
  have hknows : QueryPlanner.planPath none none knowsPattern = .ok acquaintances := rfl
  have hsingle : QueryPlanner.planPath none none (singlePattern "b") = .ok (.scan [] none (some "b")) := rfl
  rw [planStatement_pair hknows hsingle] at hplan
  cases hplan
  rw [resultOf_join hknows hleft hright] at hout
  cases hout
  -- no column belongs to a variable
  have hbare : ∀ name ∈ knowingRows.columns, DotFree name := by decide
  have hmeets : ∀ p ∈ knowingRows.records ×ˢ bareRows.records,
      decide (Meets (sampleEnv friendsBincode) knowingRows bareRows p.1 p.2) := by
    intro p _
    refine decide_eq_true (meets_iff.mpr ?_)
    rintro ⟨i, j⟩ hs
    obtain ⟨name, hi, -, hdot, -⟩ := mem_sharedColumns.mp hs
    exact absurd (hbare name (List.mem_of_getElem? hi)) hdot
  have htwo := (@forall₂_execJoin (sampleEnv friendsBincode) knowingRows bareRows
    (answersRows_executeNode _ _ _ _ _ _ hleft) (answersRows_executeNode _ _ _ _ _ _ hright)).length_eq
  rw [List.filter_eq_self.mpr hmeets, ← hcombines.length_eq, hperm.length_eq] at htwo
  exact absurd htwo (by decide)

end Friends

end Synaptica.Exec
