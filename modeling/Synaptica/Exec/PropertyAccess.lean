import Synaptica.Exec.Joining
import Synaptica.Exec.Paths
import Synaptica.Storage.Bincode

/-!
# Property access

`v.p` is looked up in three places: the column `v.p`, then a column `p` of whatever entity has such a
property, then the value that `v` is bound to. The columns `v.p` are right as long as every operator
keeps them together with the entity they came from (`Tidy`); then access can only go wrong at the bare
column `p`, in a row that has no column `v.p`.
-/

namespace Synaptica.Exec

open Gql Storage

/-! ## One record -/

/-- A node or an edge. -/
def isEntity : Value → Bool
  | .node .. | .edge .. => true
  | _ => false

/-- The columns of each variable that is bound to an entity hold the properties of that entity. -/
def Faithful (r : Record) : Prop :=
  ∀ v p, DotFree v → ∀ x w, isEntity x → r.get v = some x → r.get (dotted v p) = some w →
    w = propertyOf x p

/-- No bare column comes between `v.p` and the entity: the row has a column `v.p`, or a column `p` that
has the same value, or no column `p`. -/
def Unshadowed (r : Record) (v p : String) (x : Value) : Prop :=
  r.get (dotted v p) = none → ∀ w, r.get p = some w → w = propertyOf x p

variable (env : Env) (graphId : GraphId)

/-- Property access on a record whose columns are faithful is right unless a bare column shadows it. -/
theorem evaluate_propertyAccess_iff {r : Record} (h : Faithful r) {v p : String} (hv : DotFree v)
    {x : Value} (hx : isEntity x) (hget : r.get v = some x) :
    evaluate env r (.propertyAccess (.identifier v) p) = .ok (propertyOf x p) ↔ Unshadowed r v p x := by
  have hcolumn : propertyColumn r (.identifier v) p = (r.get (dotted v p)).or (r.get p) := rfl
  have hidentifier : evaluate env r (.identifier v) = .ok x := by
    rw [evaluate, hget]
  rw [evaluate, hcolumn, Unshadowed]
  cases hdotted : r.get (dotted v p) with
  | some w => simp [h v p hv x w hx hget hdotted]
  | none =>
    cases hbare : r.get p with
    | some w => simp
    | none =>
      rw [hidentifier]
      simp only [Option.or_none]
      constructor
      · intro _ _ w hw
        cases hw
      · intro _
        rfl

/-- A record without entities is faithful. -/
theorem faithful_of_forall_mem {r : Record} (h : ∀ x ∈ r.values, isEntity x = false) : Faithful r := by
  intro v p _ x w hx hget _
  obtain ⟨i, -, hi⟩ := Option.bind_eq_some_iff.mp hget
  rw [h x (List.mem_of_getElem? hi)] at hx
  cases hx

/-- The rows of a result set are faithful. -/
def ResultSet.Faithful (rs : ResultSet) : Prop := ∀ r ∈ rs.records, Exec.Faithful r

/-- Some of the rows, in some order. -/
theorem ResultSet.Faithful.ofRows_values {rs : ResultSet} (h : rs.Faithful) (hrect : rs.Rectangular)
    {records : List Record} (hsub : ∀ r ∈ records, r ∈ rs.records) :
    (ResultSet.ofRows rs.columns (records.map (·.values))).Faithful := by
  intro r hr
  obtain ⟨values, hvalues, rfl⟩ := List.mem_map.mp hr
  obtain ⟨r', hr', rfl⟩ := List.mem_map.mp hvalues
  rw [← (hrect r' (hsub r' hr')).1]
  exact h r' (hsub r' hr')

/-! ## Entities bring their columns along -/

theorem lookup_toList (properties : Properties) (key : String) :
    properties.toList.lookup key = properties[key]? := by
  cases hkey : properties[key]? with
  | none =>
    rw [List.lookup_eq_none_iff]
    intro e he
    have hmem := (OrderedMap.mem_toList properties).mp he
    simp only [bne_iff_ne, ne_eq]
    rintro rfl
    rw [hkey] at hmem
    cases hmem
  | some v =>
    have hmem : (key, v) ∈ properties.toList := (OrderedMap.mem_toList properties).mpr hkey
    obtain ⟨l, l', hl⟩ := List.append_of_mem hmem
    rw [List.lookup_eq_some_iff]
    refine ⟨l, l', hl, fun e he => ?_⟩
    have hsorted := OrderedMap.pairwise_toList properties
    rw [hl, List.pairwise_append] at hsorted
    simpa using (hsorted.2.2 e he (key, v) List.mem_cons_self).ne'

@[simp] theorem propertyOf_nodeValue (node : Node) (p : String) :
    propertyOf (nodeValue node) p = propertyOrNull node.properties p := by
  rw [propertyOrNull, ← lookup_toList]
  rfl

@[simp] theorem propertyOf_edgeValue (edge : Edge) (p : String) :
    propertyOf (edgeValue edge) p = propertyOrNull edge.properties p := by
  rw [propertyOrNull, ← lookup_toList]
  rfl

/-! ## Scan -/

/-- The property names have no dot and are not the name of the variable. -/
def KeysTidy (var : Option String) (node : Node) : Prop :=
  ∀ k ∈ node.properties, DotFree k ∧ k ∉ var

/-- Behind the bare columns there is only the block of the variable. -/
theorem faithful_nodeRow {keys : List String} {var : Option String} (hvar : ∀ u ∈ var, DotFree u)
    (hkeys : ∀ k ∈ keys, DotFree k ∧ k ∉ var) (node : Node) :
    Faithful ⟨nodeColumns keys var, nodeRow keys var node⟩ := by
  intro v p hv x w hx hget hdotted
  have hdot : ∀ name : String, DotFree name → dotted v p ≠ name := fun name hname heq =>
    hname.ne_dotted v p heq.symm
  rw [get_nodeRow keys var node (hdot _ (by decide)) (hdot _ (by decide)),
    if_neg (fun hmem => hdot _ (hkeys _ hmem).1 rfl), Option.none_or,
    get_blockRow_dotted_iff hvar hv] at hdotted
  obtain ⟨rfl, -, rfl⟩ := hdotted
  have hid : v ≠ "__node_id" := by
    rintro rfl
    rw [get_nodeRow_id] at hget
    cases hget
    cases hx
  have hlabels : v ≠ "__labels" := by
    rintro rfl
    rw [nodeRow_eq, Record.get_cons, if_neg (by decide), Record.get_cons, if_pos rfl] at hget
    cases hget
    cases hx
  rw [get_nodeRow keys (some v) node hid hlabels, if_neg fun hmem => (hkeys _ hmem).2 rfl,
    Option.none_or, get_blockRow_self] at hget
  cases hget
  rw [propertyOf_nodeValue]

/-- The result set of a scan, whatever the order of the keys. -/
theorem faithful_nodeResultSet {var : Option String} {nodes : List Node} {keys : List String}
    (hvar : ∀ u ∈ var, DotFree u) (hnodes : ∀ n ∈ nodes, KeysTidy var n)
    (hkeys : ∀ k ∈ keys, ∃ n ∈ nodes, k ∈ n.properties) :
    (nodeResultSet keys var nodes).Faithful := by
  intro r hr
  obtain ⟨values, hvalues, rfl⟩ := List.mem_map.mp hr
  obtain ⟨node, -, rfl⟩ := List.mem_map.mp hvalues
  refine faithful_nodeRow hvar (fun k hk => ?_) node
  obtain ⟨n, hn, hmem⟩ := hkeys k hk
  exact hnodes n hn k hmem

/-- The keys of the columns are those of the nodes. -/
theorem exists_of_mem_order {draw : Draw} {nodes : List Node} {k : String}
    (hk : k ∈ draw.order (keySet (nodes.map (·.properties)))) : ∃ n ∈ nodes, k ∈ n.properties := by
  obtain ⟨p, hp, hmem⟩ := mem_keySet.mp ((draw.perm _).mem_iff.mp hk)
  obtain ⟨n, hn, rfl⟩ := List.mem_map.mp hp
  exact ⟨n, hn, hmem⟩

/-! ## Expand -/

/-- The new variables are not columns yet, and neither are properties of theirs. -/
structure ExpandTidy (columns : List String) (edgeVar targetVar : Option String) : Prop where
  names : ∀ v, v ∈ edgeVar ∨ v ∈ targetVar → DotFree v ∧ v ∉ columns ∧ ∀ p, dotted v p ∉ columns
  ne : ∀ v ∈ edgeVar, v ∉ targetVar

/-- The source row keeps its entities, and each new one comes with its own block. -/
theorem faithful_expandRecord {columns edgeKeys targetKeys : List String} {edgeVar targetVar : Option String}
    {row : ExpandRow} (htidy : ExpandTidy columns edgeVar targetVar)
    (hwidth : row.sourceValues.length = columns.length) (hid : "__node_id" ∈ columns)
    (h : Faithful ⟨columns, row.sourceValues⟩) :
    Faithful (expandRecord columns edgeKeys targetKeys edgeVar targetVar row) := by
  intro v p hv x w hx hget hdotted
  have hne : v ≠ "__node_id" ∨ targetVar = none := by
    by_contra hnot
    obtain ⟨rfl, hsome⟩ := not_or.mp hnot |>.imp_left not_not.mp
    rw [get_expandRecord hwidth hid, if_pos ⟨Option.isSome_iff_ne_none.mpr hsome, rfl⟩] at hget
    cases hget
    cases hx
  have hedge : ∀ u ∈ edgeVar, DotFree u := fun u hu => (htidy.names u (.inl hu)).1
  have htarget : ∀ u ∈ targetVar, DotFree u := fun u hu => (htidy.names u (.inr hu)).1
  have hdottedId : dotted v p ≠ "__node_id" := fun heq =>
    (show DotFree "__node_id" by decide).ne_dotted v p heq.symm
  rw [get_expandRecord_of_ne hwidth hid hne] at hget
  rw [get_expandRecord_of_ne hwidth hid (.inl hdottedId)] at hdotted
  have hnone : ∀ name, name ∉ columns → (⟨columns, row.sourceValues⟩ : Record).get name = none :=
    fun name => (Record.get_eq_none_iff hwidth).mpr
  have hedgeNone : v ∉ edgeVar → ∀ u, (blockRow edgeKeys edgeVar (edgeValue row.edge)
      (propertyOrNull row.edge.properties)).get (dotted v p) ≠ some u := fun hnot u hu =>
    hnot ((get_blockRow_dotted_iff hedge hv).mp hu).1
  have htargetNone : v ∉ targetVar → ∀ u, (blockRow targetKeys targetVar (nodeValue row.target)
      (propertyOrNull row.target.properties)).get (dotted v p) ≠ some u := fun hnot u hu =>
    hnot ((get_blockRow_dotted_iff htarget hv).mp hu).1
  by_cases hvedge : v ∈ edgeVar
  · obtain ⟨-, hfresh, hprops⟩ := htidy.names v (.inl hvedge)
    rw [hnone v hfresh, Option.none_or, hvedge, get_blockRow_self, Option.some_or] at hget
    cases hget
    rw [hnone _ (hprops p), Option.none_or, Option.or_eq_some_iff] at hdotted
    rcases hdotted with hw | ⟨-, hw⟩
    · rw [propertyOf_edgeValue]
      exact ((get_blockRow_dotted_iff hedge hv).mp hw).2.2.symm
    · exact absurd hw (htargetNone (htidy.ne v hvedge) w)
  · have hedgeName : (blockRow edgeKeys edgeVar (edgeValue row.edge)
        (propertyOrNull row.edge.properties)).get v = none :=
      get_blockRow_of_dotFree hv fun u hu heq => hvedge (heq ▸ hu)
    rw [Option.eq_none_iff_forall_ne_some.mpr (hedgeNone hvedge), Option.or_none] at hdotted
    rw [hedgeName, Option.or_none] at hget
    by_cases hvtarget : v ∈ targetVar
    · obtain ⟨-, hfresh, hprops⟩ := htidy.names v (.inr hvtarget)
      rw [hnone v hfresh, Option.none_or, hvtarget, get_blockRow_self] at hget
      cases hget
      rw [hnone _ (hprops p), Option.none_or] at hdotted
      rw [propertyOf_nodeValue]
      exact ((get_blockRow_dotted_iff htarget hv).mp hdotted).2.2.symm
    · have htargetName : (blockRow targetKeys targetVar (nodeValue row.target)
          (propertyOrNull row.target.properties)).get v = none :=
        get_blockRow_of_dotFree hv fun u hu heq => hvtarget (heq ▸ hu)
      rw [htargetName, Option.or_none] at hget
      rw [Option.eq_none_iff_forall_ne_some.mpr (htargetNone hvtarget), Option.or_none] at hdotted
      exact h v p hv x w hx hget hdotted

theorem faithful_expandResult {input rs : ResultSet} {edgeLabel : String} {direction : Direction}
    {targetLabels : List String} {edgeVar targetVar : Option String} {db : Db} {draws : Draw × Draw}
    (hrect : input.Rectangular) (hinput : input.Faithful)
    (htidy : ExpandTidy input.columns edgeVar targetVar)
    (h : expandResult env graphId input edgeLabel direction targetLabels edgeVar targetVar db draws =
      .ok rs) : rs.Faithful := by
  simp only [expandResult, Except.bind_eq_ok, Except.pure_eq_ok] at h
  obtain ⟨rows, hrows, rfl⟩ := h
  obtain ⟨hall, hfrom⟩ := expandedRows_eq_ok hrows
  intro o ho
  rw [records_expandResultSet] at ho
  obtain ⟨row, hrow, rfl⟩ := List.mem_map.mp ho
  obtain ⟨r, hr, hop, rfl⟩ := hfrom row hrow
  obtain ⟨hbelow, hwidth⟩ := hrect r hr
  obtain ⟨hops, hhops⟩ := hall r hr
  obtain ⟨s, u, hid, -⟩ := exists_id_of_hopsOf hhops
  have hcolumn : "__node_id" ∈ input.columns := by
    rw [← hbelow]
    exact Record.mem_columns_of_get hid
  refine faithful_expandRecord htidy hwidth hcolumn ?_
  show Faithful ⟨input.columns, r.values⟩
  rw [← hbelow]
  exact hinput r hr

/-! ## Project -/

/-- The expression of the first item under a column name. -/
def ItemOf (expressions : List Expression) (aliases : List (Option String)) (name : String)
    (expr : Expression) : Prop :=
  ∃ i, (projectColumns expressions aliases).idxOf? name = some i ∧ expressions[i]? = some expr

/-- The columns of a projection: those of its items, and the internal ones that it carries along. -/
def outputColumns (expressions : List Expression) (aliases : List (Option String)) (rs : ResultSet) :
    List String :=
  projectColumns expressions aliases ++
    internalColumns rs.columns (projectColumns expressions aliases)

/-- A projection that keeps a column `v.p` and a column `v` takes both from the old `v`, and where it
computes `v.p` the bare column does not interfere. -/
structure ProjectTidy (expressions : List Expression) (aliases : List (Option String)) (rs : ResultSet) :
    Prop where
  names : ∀ v p expr, DotFree v → dotted v p ∈ outputColumns expressions aliases rs →
    ItemOf expressions aliases v expr → expr = .identifier v
  properties : ∀ v p expr, DotFree v → v ∈ outputColumns expressions aliases rs →
    ItemOf expressions aliases (dotted v p) expr →
    ∀ r ∈ rs.records, ∀ x, isEntity x → r.get v = some x →
      expr = .propertyAccess (.identifier v) p ∧ Unshadowed r v p x

variable {env}

/-- The values of items, by name. -/
theorem exists_itemOf {expressions : List Expression} {aliases : List (Option String)} {values : List Value}
    {name : String} {x : Value}
    (hget : (⟨projectColumns expressions aliases, values⟩ : Record).get name = some x)
    (hlength : values.length = expressions.length) :
    ∃ (i : Nat) (expr : Expression), ItemOf expressions aliases name expr ∧
      expressions[i]? = some expr ∧ values[i]? = some x := by
  obtain ⟨i, hi, hx⟩ := Option.bind_eq_some_iff.mp hget
  have hlt : i < expressions.length := by
    rw [← hlength]
    exact (List.getElem?_eq_some_iff.mp hx).1
  exact ⟨i, expressions[i], ⟨i, hi, List.getElem?_eq_getElem hlt⟩, List.getElem?_eq_getElem hlt, hx⟩

theorem evaluate_of_evaluateAll {context : Record} {exprs : List Expression} {values : List Value}
    (h : evaluateAll env context exprs = .ok values) {i : Nat} {expr : Expression} {x : Value}
    (hexpr : exprs[i]? = some expr) (hx : values[i]? = some x) : evaluate env context expr = .ok x := by
  induction exprs generalizing values i with
  | nil => cases hexpr
  | cons first exprs ih =>
    simp only [evaluateAll, Except.bind_eq_ok, Except.pure_eq_ok] at h
    obtain ⟨v, hv, rest, hrest, rfl⟩ := h
    cases i with
    | zero =>
      cases hexpr
      cases hx
      exact hv
    | succ i => exact ih hrest hexpr hx

theorem groupValue_of_mapM {first : Record} {records : List Record} {exprs : List Expression}
    {values : List Value} (h : exprs.mapM (groupValue env first records) = .ok values) {i : Nat}
    {expr : Expression} {x : Value} (hexpr : exprs[i]? = some expr) (hx : values[i]? = some x) :
    groupValue env first records expr = .ok x := by
  induction exprs generalizing values i with
  | nil => cases hexpr
  | cons e exprs ih =>
    obtain ⟨v, rest, hv, hrest, rfl⟩ := List.mapM_cons_eq_ok.mp h
    cases i with
    | zero =>
      cases hexpr
      cases hx
      exact hv
    | succ i => exact ih hrest hexpr hx

/-- An aggregate of a group, not an expression on one record. -/
def isAggregate : Expression → Bool
  | .aggregate .. => true
  | _ => false

variable (env) in
/-- A projected row is faithful when each of its values is that of an item on a faithful record, or one of
that record's. -/
theorem faithful_of_items {expressions : List Expression} {aliases : List (Option String)}
    {rs : ResultSet} {r o : Record} (htidy : ProjectTidy expressions aliases rs) (hr : Faithful r)
    (hmem : r ∈ rs.records ∨ r = ⟨[], []⟩)
    (hcolumns : ∀ name x, o.get name = some x → name ∈ outputColumns expressions aliases rs)
    (hvalues : ∀ name x, o.get name = some x →
      (∃ expr, ItemOf expressions aliases name expr ∧
        (isAggregate expr = false → evaluate env r expr = .ok x)) ∨ r.get name = some x) :
    Faithful o := by
  intro v p hv x w hx hget hdotted
  -- the value of `v` is that of the old `v`
  have hold : r.get v = some x := by
    rcases hvalues v x hget with ⟨expr, hitem, heval⟩ | hold
    · obtain rfl := htidy.names v p expr hv (hcolumns _ _ hdotted) hitem
      have heval := heval rfl
      rw [evaluate] at heval
      split at heval
      · rename_i y hy
        cases heval
        exact hy
      · cases heval
    · exact hold
  rcases hvalues (dotted v p) w hdotted with ⟨expr, hitem, heval⟩ | hw
  · rcases hmem with hmem | rfl
    · obtain ⟨rfl, hshadow⟩ := htidy.properties v p expr hv (hcolumns _ _ hget) hitem r hmem x hx hold
      have heval := heval rfl
      rw [(evaluate_propertyAccess_iff env hr hv hx hold).mpr hshadow] at heval
      cases heval
      rfl
    · cases hold
  · exact hr v p hv x w hx hold hw

/-- Groups are made of the records. -/
theorem mem_of_groupRecords {groupExprs : List Expression} {P : Record → Prop}
    {groups groups' : OrderedMap String (List Record)} {records : List Record}
    (h : groupRecords env groupExprs groups records = .ok groups') (hrecords : ∀ r ∈ records, P r)
    (hgroups : ∀ (k : String) (l : List Record), groups[k]? = some l → ∀ r ∈ l, P r) :
    ∀ (k : String) (l : List Record), groups'[k]? = some l → ∀ r ∈ l, P r := by
  induction records generalizing groups with
  | nil =>
    cases h
    exact hgroups
  | cons record records ih =>
    simp only [groupRecords, Except.bind_eq_ok] at h
    obtain ⟨key, -, hrest⟩ := h
    refine ih hrest (fun r hr => hrecords r (List.mem_cons_of_mem _ hr)) fun k l hl r hr => ?_
    rw [OrderedMap.getElem?_insert] at hl
    split at hl
    · cases hl
      rcases List.mem_append.mp hr with hr | hr
      · cases hkey : groups[key]? with
        | none =>
          rw [hkey] at hr
          cases hr
        | some members =>
          rw [hkey] at hr
          exact hgroups key members hkey r hr
      · rw [List.mem_singleton.mp hr]
        exact hrecords record List.mem_cons_self
    · exact hgroups k l hl r hr

theorem faithful_execProjectWithAggregation {input rs : ResultSet} {expressions : List Expression}
    {aliases : List (Option String)} (hinput : input.Faithful)
    (htidy : ProjectTidy expressions aliases input)
    (h : execProjectWithAggregation env input expressions aliases = .ok rs) : rs.Faithful := by
  simp only [execProjectWithAggregation, Except.bind_eq_ok] at h
  obtain ⟨groups, hgroups, h⟩ := h
  split at h
  · -- a single row of counts, empty lists and NULLs
    cases h
    intro o ho
    obtain ⟨values, hvalues, rfl⟩ := List.mem_map.mp ho
    rw [List.mem_singleton.mp hvalues]
    apply faithful_of_forall_mem
    intro x hx
    obtain ⟨expr, -, rfl⟩ := List.mem_map.mp hx
    unfold emptyAggregate
    split <;> rfl
  · simp only [Except.bind_eq_ok, Except.pure_eq_ok] at h
    obtain ⟨rows, hrows, rfl⟩ := h
    intro o ho
    obtain ⟨row, hrow, rfl⟩ := List.mem_map.mp ho
    obtain ⟨⟨key, members⟩, hmem, hrow⟩ := List.exists_of_mem_mapM hrows hrow
    have hgroup := (OrderedMap.mem_toList groups).mp hmem
    cases members with
    | nil =>
      cases hrow
      exact faithful_of_forall_mem (by simp)
    | cons first rest =>
      have hfirst : first ∈ input.records :=
        mem_of_groupRecords (P := (· ∈ input.records)) hgroups (fun _ hr => hr) (by simp) key _ hgroup
          first List.mem_cons_self
      refine faithful_of_items env htidy (hinput first hfirst) (.inl hfirst) ?_ ?_
      · intro name x hget
        exact List.mem_append_left _ (Record.mem_columns_of_get hget)
      · intro name x hget
        obtain ⟨i, expr, hitem, hexpr, hx⟩ := exists_itemOf hget (List.length_of_mapM_eq_ok hrow)
        refine .inl ⟨expr, hitem, fun hplain => ?_⟩
        have hvalue := groupValue_of_mapM hrow hexpr hx
        cases expr <;> first | exact hvalue | cases hplain

/-- Every row of a projection comes from one record. -/
theorem exists_of_mem_projectRows {expressions : List Expression} {internal : List (Option Nat)}
    {records : List Record} {rows : List (List Value)}
    (h : projectRows env expressions internal records = .ok rows) :
    ∀ row ∈ rows, ∃ r ∈ records, ∃ values, evaluateAll env r expressions = .ok values ∧
      row = values ++ internal.map fun idx => (idx.bind fun i => r.values[i]?).getD .null := by
  induction records generalizing rows with
  | nil =>
    cases h
    simp
  | cons record records ih =>
    simp only [projectRows, projectRow, Except.bind_eq_ok, Except.pure_eq_ok] at h
    obtain ⟨first, ⟨values, hvalues, rfl⟩, rest, hrest, rfl⟩ := h
    intro row hrow
    rcases List.mem_cons.mp hrow with rfl | hrow
    · exact ⟨record, List.mem_cons_self, values, hvalues, rfl⟩
    · obtain ⟨r, hr, hrow⟩ := ih hrest row hrow
      exact ⟨r, List.mem_cons_of_mem _ hr, hrow⟩

/-- The internal columns of a projected row are those of the record. -/
theorem get_internal {columns internal : List String} {r : Record} (hbelow : r.columns = columns)
    (hwidth : r.values.length = columns.length) (hsub : ∀ c ∈ internal, c ∈ columns) {name : String}
    {x : Value}
    (hget : (⟨internal, internal.map fun c =>
      ((columns.idxOf? c).bind fun i => r.values[i]?).getD .null⟩ : Record).get name = some x) :
    r.get name = some x := by
  have hmem : name ∈ internal := Record.mem_columns_of_get hget
  have hmap := Record.get_map (f := fun c => ((columns.idxOf? c).bind fun i => r.values[i]?).getD .null)
    (g := id) Function.injective_id internal name
  rw [List.map_id, id_eq, if_pos hmem] at hmap
  rw [hmap] at hget
  cases hget
  have hsome : (⟨columns, r.values⟩ : Record).get name ≠ none := fun h =>
    (Record.get_eq_none_iff hwidth).mp h (hsub name hmem)
  obtain ⟨y, hy⟩ := Option.ne_none_iff_exists'.mp hsome
  have hlook : ((columns.idxOf? name).bind fun i => r.values[i]?) = some y := hy
  rw [hlook, Option.getD_some, ← hy, ← hbelow]

theorem faithful_execProject {input rs : ResultSet} {expressions : List Expression}
    {aliases : List (Option String)} (hrect : input.Rectangular) (hinput : input.Faithful)
    (htidy : ProjectTidy expressions aliases input)
    (h : execProject env input expressions aliases = .ok rs) : rs.Faithful := by
  unfold execProject at h
  split at h
  · exact faithful_execProjectWithAggregation hinput htidy h
  · dsimp only at h
    have hinternal : ∀ c ∈ internalColumns input.columns (projectColumns expressions aliases),
        c ∈ input.columns := fun c hc => (List.mem_filter.mp hc).1
    split at h
    · rename_i hempty
      simp only [Except.bind_eq_ok, Except.pure_eq_ok] at h
      obtain ⟨values, hvalues, rfl⟩ := h
      have hcolumns : input.columns = [] := by simpa using (Bool.and_eq_true_iff.mp hempty).2
      intro o ho
      obtain ⟨row, hrow, rfl⟩ := List.mem_map.mp ho
      rw [List.mem_singleton.mp hrow]
      have hnone : Faithful ⟨[], []⟩ := faithful_of_forall_mem (by simp)
      refine faithful_of_items env htidy hnone (.inr rfl) (fun name x hget => Record.mem_columns_of_get hget) ?_
      intro name x hget
      rw [hcolumns] at hget
      have hget : (⟨projectColumns expressions aliases ++ [], values⟩ : Record).get name = some x := hget
      rw [List.append_nil] at hget
      obtain ⟨i, expr, hitem, hexpr, hx⟩ := exists_itemOf hget (length_of_evaluateAll env hvalues)
      exact .inl ⟨expr, hitem, fun _ => evaluate_of_evaluateAll hvalues hexpr hx⟩
    · simp only [Except.bind_eq_ok, Except.pure_eq_ok] at h
      obtain ⟨rows, hrows, rfl⟩ := h
      intro o ho
      obtain ⟨row, hrow, rfl⟩ := List.mem_map.mp ho
      obtain ⟨r, hr, values, hvalues, rfl⟩ := exists_of_mem_projectRows hrows row hrow
      have hlength := length_of_evaluateAll env hvalues
      refine faithful_of_items env htidy (hinput r hr) (.inl hr) (fun name x hget => Record.mem_columns_of_get hget) ?_
      intro name x hget
      rw [Record.get_append (by rw [hlength, length_projectColumns]), Option.or_eq_some_iff] at hget
      rcases hget with hget | ⟨-, hget⟩
      · obtain ⟨i, expr, hitem, hexpr, hx⟩ := exists_itemOf hget hlength
        exact .inl ⟨expr, hitem, fun _ => evaluate_of_evaluateAll hvalues hexpr hx⟩
      · rw [List.map_map] at hget
        exact .inr (get_internal (hrect r hr).1 (hrect r hr).2 hinternal hget)

/-! ## Join -/

/-- A variable of both sides is bound to the same entity in the rows that meet, and a side that has
properties of a variable of the other one also has the variable. -/
structure JoinTidy (env : Env) (left right : ResultSet) : Prop where
  shared : ∀ l ∈ left.records, ∀ r ∈ right.records, Meets env left right l r →
    ∀ v p, DotFree v → dotted v p ∉ left.columns → dotted v p ∈ right.columns →
      ∀ x, isEntity x → l.get v = some x → r.get v = some x
  separate : ∀ v p, DotFree v → v ∉ left.columns → v ∈ right.columns →
    dotted v p ∉ left.columns

theorem faithful_execJoin {left right : ResultSet} (hleft : left.Rectangular) (hright : right.Rectangular)
    (hl : left.Faithful) (hr : right.Faithful) (htidy : JoinTidy env left right) :
    (execJoin env left right).Faithful := by
  intro o ho v p hv x w hx hget hdotted
  obtain ⟨l, hlmem, r, hrmem, hmeets, hlook⟩ := exists_of_mem_execJoin hleft hright ho
  rw [hlook, Option.or_eq_some_iff] at hget hdotted
  have hcolumn : ∀ {name y}, r.get name = some y → name ∈ right.columns := fun h => by
    rw [← (hright r hrmem).1]
    exact Record.mem_columns_of_get h
  have hmissing : ∀ {name}, l.get name = none → name ∉ left.columns := fun h => by
    rw [← Record.get_eq_none_iff (hleft l hlmem).2, ← (hleft l hlmem).1]
    exact h
  rcases hget with hgetl | ⟨hnone, hgetr⟩
  · rcases hdotted with hw | ⟨hnow, hw⟩
    · exact hl l hlmem v p hv x w hx hgetl hw
    · have hgetr := htidy.shared l hlmem r hrmem hmeets v p hv (hmissing hnow) (hcolumn hw) x hx hgetl
      exact hr r hrmem v p hv x w hx hgetr hw
  · have hnot := htidy.separate v p hv (hmissing hnone) (hcolumn hgetr)
    rcases hdotted with hw | ⟨-, hw⟩
    · rw [← (hleft l hlmem).1] at hnot
      exact absurd (Record.mem_columns_of_get hw) hnot
    · exact hr r hrmem v p hv x w hx hgetr hw

/-! ## Operators without entities -/

section Answers

open Process

/-- Counts, texts and ids. -/
theorem faithful_ofRows {columns : List String} {rows : List (List Value)}
    (h : ∀ row ∈ rows, ∀ x ∈ row, isEntity x = false) : (ResultSet.ofRows columns rows).Faithful := by
  intro r hr
  obtain ⟨row, hrow, rfl⟩ := List.mem_map.mp hr
  exact faithful_of_forall_mem (h row hrow)

/-- The last step of an operator makes the result set. -/
theorem answersFaithful_bind {α : Type} {p : ExecM α} {f : α → ExecM ResultSet}
    (h : ∀ a, (f a).Answers ResultSet.Faithful) : (p >>= f).Answers ResultSet.Faithful :=
  answers_bind (answers_true p) fun a _ => h a

theorem answers_createEdgeRows (sourceVar targetVar label : String)
    (properties : List (String × Expression)) (records : List Record) :
    (createEdgeRows env graphId sourceVar targetVar label properties records).Answers
      fun rows => ∀ row ∈ rows, ∀ x ∈ row, isEntity x = false := by
  induction records with
  | nil => exact answers_pure (by simp)
  | cons record records ih =>
    have hrow : (createEdgeRow env graphId sourceVar targetVar label properties record).Answers
        fun row => ∀ x ∈ row, isEntity x = false :=
      answers_bind (answers_true _) fun _ _ => answers_bind (answers_true _) fun _ _ =>
        answers_bind (answers_true _) fun _ _ => answers_bind (answers_true _) fun _ _ =>
        answers_bind (answers_true _) fun _ _ => answers_bind (answers_true _) fun _ _ =>
        answers_bind (answers_true _) fun _ _ => answers_bind (answers_true _) fun _ _ =>
        answers_pure (by simp [isEntity])
    exact answers_bind hrow fun row hrow => answers_bind ih fun rows hrows =>
      answers_pure (List.forall_mem_cons.mpr ⟨hrow, hrows⟩)

/-- No entity in any row. -/
def ResultSet.Plain (rs : ResultSet) : Prop := ∀ r ∈ rs.records, ∀ x ∈ r.values, isEntity x = false

theorem plain_ofRows {columns : List String} {rows : List (List Value)}
    (h : ∀ row ∈ rows, ∀ x ∈ row, isEntity x = false) : (ResultSet.ofRows columns rows).Plain := by
  intro r hr
  obtain ⟨row, hrow, rfl⟩ := List.mem_map.mp hr
  exact h row hrow

theorem answers_procedureResult (procedure : String) :
    (procedureResult env graphId procedure).Answers ResultSet.Plain := by
  have hbind : ∀ {α : Type} {p : ExecM α} {f : α → ExecM ResultSet},
      (∀ a, (f a).Answers ResultSet.Plain) → (p >>= f).Answers ResultSet.Plain := fun h =>
    answers_bind (answers_true _) fun a _ => h a
  have htexts : ∀ texts : List String, ∀ row ∈ (sortedTexts texts).map ([·]), ∀ x ∈ row,
      isEntity x = false := by
    intro texts row hrow x hx
    obtain ⟨y, hy, rfl⟩ := List.mem_map.mp hrow
    obtain ⟨text, -, rfl⟩ := List.mem_map.mp hy
    rw [List.mem_singleton.mp hx]
    rfl
  unfold procedureResult
  dsimp only
  split
  case h_1 => exact hbind fun _ => answers_pure (plain_ofRows (htexts _))
  case h_6 => exact hbind fun _ => answers_pure (plain_ofRows (by simp [isEntity]))
  case h_8 => exact answers_fail _ _
  case h_2 => exact hbind fun _ => hbind fun _ => answers_pure (plain_ofRows (htexts _))
  case h_3 => exact hbind fun _ => hbind fun _ => answers_pure (plain_ofRows (htexts _))
  all_goals
    exact hbind fun _ => hbind fun _ =>
      answers_pure (plain_ofRows (by first | exact htexts _ | simp [isEntity]))

theorem answersFaithful_execCallProcedure (procedure : String) (yieldItems : Option (List String)) :
    (execCallProcedure env graphId procedure yieldItems).Answers ResultSet.Faithful := by
  refine answers_bind (answers_procedureResult graphId procedure) fun result hresult => ?_
  cases yieldItems with
  | none => exact answers_pure fun r hr => faithful_of_forall_mem (hresult r hr)
  | some items =>
    refine answers_pure (faithful_ofRows fun row hrow x hx => ?_)
    obtain ⟨r, hr, rfl⟩ := List.mem_map.mp hrow
    obtain ⟨name, -, rfl⟩ := List.mem_map.mp hx
    cases hvalue : (result.columnIndex name).bind fun i => r.values[i]? with
    | none => rfl
    | some y =>
      obtain ⟨i, -, hi⟩ := Option.bind_eq_some_iff.mp hvalue
      exact hresult r hr y (List.mem_of_getElem? hi)

theorem faithful_message (text : String) : (message text).Faithful :=
  faithful_ofRows (by simp [isEntity])

theorem answersFaithful_execCreateGraph (name : String) (ifNotExists : Bool) :
    (execCreateGraph env name ifNotExists).Answers ResultSet.Faithful := by
  refine answersFaithful_bind fun found => ?_
  split
  · split
    · exact answers_pure (faithful_message _)
    · exact answers_fail _ _
  · exact answersFaithful_bind fun _ => answers_pure (faithful_message _)

theorem answersFaithful_execDropGraph (name : String) (ifExists : Bool) :
    (execDropGraph env name ifExists).Answers ResultSet.Faithful := by
  refine answersFaithful_bind fun found => ?_
  split
  · split
    · exact answers_pure (faithful_message _)
    · exact answers_fail _ _
  · exact answersFaithful_bind fun _ => answers_pure (faithful_message _)

end Answers

/-! ## Plans -/

section Plans

variable (env)

/-- The answer of a plan that is executed alone. -/
abbrev resultOf (plan : LogicalPlan) (ω : Stream' Draw) (db : Db) : Except ExecError ResultSet :=
  ((executeNode env graphId plan).run ω db).result

/-- Every step of the execution keeps the columns `v.p` with the entity they come from. -/
def Tidy : LogicalPlan → Stream' Draw → Db → Prop
  | .scan labels _ var, _, db => (∀ v ∈ var, DotFree v) ∧
    ∀ nodes, scanWith env graphId db labels = .ok nodes → ∀ n ∈ nodes, KeysTidy var n
  | .indexScan _ labels var _ _ _, _, db => (∀ v ∈ var, DotFree v) ∧
    ∀ ids, ∀ n ∈ loadedNodes env graphId labels ids db, KeysTidy var n
  | .project input expressions aliases, ω, db => Tidy input ω db ∧
    ∀ rs, resultOf env graphId input ω db = .ok rs → ProjectTidy expressions aliases rs
  | .expand input _ _ _ edgeVar targetVar, ω, db => Tidy input ω db ∧
    ∀ rs, resultOf env graphId input ω db = .ok rs → ExpandTidy rs.columns edgeVar targetVar
  | .join left right, ω, db =>
    let ended := (executeNode env graphId left).run ω db
    Tidy left ω db ∧ Tidy right ended.rest ended.state ∧
      ∀ lrs rrs, ended.result = .ok lrs → resultOf env graphId right ended.rest ended.state = .ok rrs →
        JoinTidy env lrs rrs
  | .filter input _, ω, db | .sort input _, ω, db | .limit input _ _, ω, db | .distinct input, ω, db
  | .deleteNode input _ _, ω, db | .setProperty input _ _ _, ω, db
  | .createEdgeFromMatch input _ _ _ _, ω, db => Tidy input ω db
  | _, _, _ => True

/-- The plan that is executed first. -/
def firstInput : LogicalPlan → Option LogicalPlan
  | .filter input _ | .project input _ _ | .expand input _ _ _ _ _ | .join input _ | .sort input _
  | .limit input _ _ | .distinct input | .deleteNode input _ _ | .setProperty input _ _ _
  | .createEdgeFromMatch input _ _ _ _ => some input
  | _ => none

/-- The executions of parts of a plan while the plan is executed. The candidates of an index scan are the
rows that the rest of its predicate is evaluated on. -/
inductive Executes : LogicalPlan → Stream' Draw → Db → LogicalPlan → Stream' Draw → Db → Prop
  | self (plan ω db) : Executes plan ω db plan ω db
  | input {plan input ω db q ω' db'} : firstInput plan = some input → Executes input ω db q ω' db' →
    Executes plan ω db q ω' db'
  | candidates (indexName labels var props values remaining ω db) :
    Executes (.indexScan indexName labels var props values remaining) ω db
      (.indexScan indexName labels var props values none) ω db
  | right {left right ω db q ω' db'} :
    Executes right ((executeNode env graphId left).run ω db).rest
      ((executeNode env graphId left).run ω db).state q ω' db' →
    Executes (.join left right) ω db q ω' db'

variable {env graphId}

/-- The parts of a tidy execution are tidy. -/
theorem Tidy.of_executes {plan q : LogicalPlan} {ω ω' : Stream' Draw} {db db' : Db}
    (htidy : Tidy env graphId plan ω db) (h : Executes env graphId plan ω db q ω' db') :
    Tidy env graphId q ω' db' := by
  induction h with
  | self | candidates => exact htidy
  | @input plan input _ _ _ _ _ hfirst _ ih =>
    apply ih
    unfold firstInput at hfirst
    split at hfirst
    case h_11 => cases hfirst
    case h_2 => cases hfirst; exact htidy.1
    case h_3 => cases hfirst; exact htidy.1
    case h_4 => cases hfirst; exact htidy.1
    all_goals cases hfirst; exact htidy
  | right _ ih => exact ih htidy.2.1

open Process

/-- **Every record of a tidy execution is faithful**, by induction on the plan: one case for each
operator. -/
theorem faithful_executeNode {plan : LogicalPlan} {ω : Stream' Draw} {db : Db} {rs : ResultSet}
    (htidy : Tidy env graphId plan ω db) (h : resultOf env graphId plan ω db = .ok rs) :
    rs.Faithful := by
  have hrect := fun p ω db rs h => answersRows_executeNode env graphId p ω db rs h
  induction plan generalizing ω db rs with
  | scan labels graph var =>
    obtain ⟨hvar, hkeys⟩ := htidy
    rw [resultOf, executeNode, result_execScan, scanResult] at h
    simp only [Except.bind_eq_ok, Except.pure_eq_ok] at h
    obtain ⟨nodes, hnodes, rfl⟩ := h
    cases hscan : scanWith env graphId db labels with
    | error e =>
      rw [hscan] at hnodes
      cases hnodes
    | ok ns =>
      rw [hscan] at hnodes
      cases hnodes
      exact faithful_nodeResultSet hvar (hkeys _ hscan) fun k hk => exists_of_mem_order hk
  | filter input predicate ih =>
    obtain ⟨input', hinput, h⟩ := result_bind_eq_ok.mp h
    have h : execFilter env input' predicate = .ok rs := h
    simp only [execFilter, Except.bind_eq_ok, Except.pure_eq_ok] at h
    obtain ⟨kept, hkept, rfl⟩ := h
    exact (ih htidy hinput).ofRows_values (hrect _ _ _ _ hinput) (mem_of_mem_filterRecords env hkept)
  | project input expressions aliases ih =>
    obtain ⟨input', hinput, h⟩ := result_bind_eq_ok.mp h
    exact faithful_execProject (hrect _ _ _ _ hinput) (ih htidy.1 hinput) (htidy.2 _ hinput) h
  | expand input edgeLabel direction targetLabels edgeVar targetVar ih =>
    obtain ⟨input', hinput, h⟩ := result_bind_eq_ok.mp h
    rw [result_execExpand, expandResult] at h
    exact faithful_expandResult env graphId (hrect _ _ _ _ hinput) (ih htidy.1 hinput) (htidy.2 _ hinput) h
  | join left right ihl ihr =>
    obtain ⟨lrs, hleft, h⟩ := result_bind_eq_ok.mp h
    obtain ⟨rrs, hright, h⟩ := result_bind_eq_ok.mp h
    obtain ⟨htl, htr, hjoin⟩ := htidy
    cases h
    exact faithful_execJoin (hrect _ _ _ _ hleft) (hrect _ _ _ _ hright) (ihl htl hleft) (ihr htr hright)
      (hjoin _ _ hleft hright)
  | sort input orderBy ih =>
    obtain ⟨input', hinput, h⟩ := result_bind_eq_ok.mp h
    have h : execSort env input' orderBy = .ok rs := h
    have hmem := @mem_of_mem_sortRecords env orderBy input'.records
    unfold execSort at h
    split at h
    · cases h
    · rename_i records hsorted
      cases h
      rw [hsorted] at hmem
      exact fun r hr => ih htidy hinput r (hmem r hr)
  | limit input count offset ih =>
    obtain ⟨input', hinput, h⟩ := result_bind_eq_ok.mp h
    cases h
    unfold execLimit
    apply (ih htidy hinput).ofRows_values (hrect _ _ _ _ hinput)
    intro r hr
    cases count with
    | none => exact List.mem_of_mem_drop hr
    | some c => exact List.mem_of_mem_drop (List.mem_of_mem_take hr)
  | distinct input ih =>
    obtain ⟨input', hinput, h⟩ := result_bind_eq_ok.mp h
    cases h
    exact (ih htidy hinput).ofRows_values (hrect _ _ _ _ hinput) (mem_of_mem_distinctRecords env)
  | createNode labels properties =>
    have hanswers : (execCreateNode env graphId labels properties).Answers ResultSet.Faithful :=
      answersFaithful_bind fun _ => answersFaithful_bind fun _ => answersFaithful_bind fun _ =>
        answersFaithful_bind fun _ => answersFaithful_bind fun _ =>
        answers_pure (faithful_ofRows (by simp [isEntity]))
    exact hanswers _ _ _ h
  | createEdgeFromMatch input sourceVar targetVar label properties ih =>
    obtain ⟨input', hinput, h⟩ := result_bind_eq_ok.mp h
    have hanswers : (execCreateEdgeFromMatch env graphId input' sourceVar targetVar label
        properties).Answers ResultSet.Faithful :=
      answers_bind (answers_createEdgeRows graphId sourceVar targetVar label properties input'.records)
        fun _ hrows => answers_pure (faithful_ofRows hrows)
    exact hanswers _ _ _ h
  | deleteNode input targets detach ih =>
    obtain ⟨input', hinput, h⟩ := result_bind_eq_ok.mp h
    have hanswers : (execDeleteNodes env graphId input' targets).Answers ResultSet.Faithful :=
      answersFaithful_bind fun _ => answersFaithful_bind fun _ =>
        answers_pure (faithful_ofRows (by simp [isEntity]))
    exact hanswers _ _ _ h
  | setProperty input target property value ih =>
    obtain ⟨input', hinput, h⟩ := result_bind_eq_ok.mp h
    have hanswers : (execSetProperty env graphId input' target property value).Answers ResultSet.Faithful :=
      answersFaithful_bind fun _ => answers_pure (faithful_ofRows (by simp [isEntity]))
    exact hanswers _ _ _ h
  | callProcedure procedure arguments yieldItems =>
    exact answersFaithful_execCallProcedure graphId procedure yieldItems _ _ _ h
  | empty =>
    cases h
    exact faithful_ofRows (by simp)
  | indexScan indexName labels var props values remaining =>
    obtain ⟨hvar, hkeys⟩ := htidy
    rw [resultOf, executeNode, result_execIndexScan, indexScanResult] at h
    simp only [Except.bind_eq_ok] at h
    obtain ⟨nodes, hnodes, h⟩ := h
    obtain ⟨ids, rfl⟩ := exists_ids_of_indexScanNodes hnodes
    have hscan : (nodeResultSet (ω.head.order (keySet
        ((loadedNodes env graphId labels ids db).map (·.properties)))) var
          (loadedNodes env graphId labels ids db)).Faithful :=
      faithful_nodeResultSet hvar (hkeys ids) fun k hk => exists_of_mem_order hk
    cases remaining with
    | none =>
      cases h
      exact hscan
    | some predicate =>
      simp only [execFilter, Except.bind_eq_ok, Except.pure_eq_ok] at h
      obtain ⟨kept, hkept, rfl⟩ := h
      exact hscan.ofRows_values (rectangular_nodeResultSet _ _ _) (mem_of_mem_filterRecords env hkept)
  | createIndex name unique entityType label propertyNames =>
    have hanswers : (execCreateIndex env graphId name unique entityType label
        propertyNames).Answers ResultSet.Faithful := by
      refine answersFaithful_bind fun _ => ?_
      dsimp only
      generalize (if entityType = "edge" then IndexEntityType.edge else IndexEntityType.node) = kind
      cases kind with
      | node =>
        exact answersFaithful_bind fun _ => answersFaithful_bind fun _ =>
          answers_pure (faithful_ofRows (by simp [isEntity]))
      | edge => exact answers_pure (faithful_ofRows (by simp [isEntity]))
    exact hanswers _ _ _ h
  | dropIndex name =>
    have hanswers : (execDropIndex env graphId name).Answers ResultSet.Faithful :=
      answersFaithful_bind fun _ => answers_pure (faithful_ofRows (by simp [isEntity]))
    exact hanswers _ _ _ h
  | createGraph name ifNotExists => exact answersFaithful_execCreateGraph name ifNotExists _ _ _ h
  | dropGraph name ifExists => exact answersFaithful_execDropGraph name ifExists _ _ _ h
  | listGraphs =>
    have hanswers : (execListGraphs env).Answers ResultSet.Faithful :=
      answersFaithful_bind fun _ => answers_pure (faithful_ofRows (by simp [isEntity]))
    exact hanswers _ _ _ h
  | aggregate | createEdge | union => cases h

/-- **Property access reads the property of the entity** exactly where no bare column shadows it, in every
record of a tidy execution. -/
theorem propertyAccess_iff {plan q : LogicalPlan} {ω ω' : Stream' Draw} {db db' : Db} {rs : ResultSet}
    (htidy : Tidy env graphId plan ω db) (hexec : Executes env graphId plan ω db q ω' db')
    (hresult : resultOf env graphId q ω' db' = .ok rs) {r : Record} (hr : r ∈ rs.records) {v p : String}
    (hv : DotFree v) {x : Value} (hx : isEntity x) (hget : r.get v = some x) :
    evaluate env r (.propertyAccess (.identifier v) p) = .ok (propertyOf x p) ↔ Unshadowed r v p x :=
  evaluate_propertyAccess_iff env (faithful_executeNode (htidy.of_executes hexec) hresult r hr) hv hx hget

end Plans

/-! ## A named person and a friend without a name -/

section Named

def named : Node := { person with properties := Std.ExtTreeMap.ofList [("name", .string "Ann")] _ }

def namedBincode : Bincode := .table sampleRuntime.formats [named, friend] [befriends] []

def namedStore : Db := storeRun namedBincode [.putNode named, .putNode friend, .putEdge befriends]

/-- `(a)-[:KNOWS]->(b)`. -/
def acquaintances : LogicalPlan := chainPlan none ⟨bareNode (some "a"), [(knowsEdge, bareNode (some "b"))]⟩

/-- The columns of `acquaintances` where only `a` has a name. -/
def acquaintancesRow : Record :=
  ⟨["__node_id", "__labels", "name", "a", "a.name", "b"],
    [.string friend.id.uuid.toString, .list [.string "Person"], .string "Ann", nodeValue named,
      .string "Ann", nodeValue friend]⟩

theorem resultOf_acquaintances : resultOf (sampleEnv namedBincode) sampleGraph acquaintances sampleDraws
    namedStore = .ok ⟨acquaintancesRow.columns, [acquaintancesRow]⟩ := by
  decide

theorem tidy_acquaintances : Tidy (sampleEnv namedBincode) sampleGraph acquaintances sampleDraws
    namedStore := by
  have hscan : scanWith (sampleEnv namedBincode) sampleGraph namedStore [] = .ok [named, friend] := by
    decide
  have hcolumns : (resultOf (sampleEnv namedBincode) sampleGraph (.scan [] none (some "a")) sampleDraws
      namedStore).map (·.columns) = .ok ["__node_id", "__labels", "name", "a", dotted "a" "name"] := by
    decide
  have ha : DotFree "a" := by decide
  have hb : DotFree "b" := by decide
  refine ⟨⟨by simpa [bareNode] using ha, fun nodes hnodes n hn k hk => ?_⟩, fun rs hrs => ?_⟩
  · rw [show (bareNode (some "a")).labels = [] from rfl, hscan] at hnodes
    cases hnodes
    rcases List.mem_pair.mp hn with rfl | rfl
    · obtain rfl : "name" = k := by simpa [named, Std.ExtTreeMap.mem_ofList] using hk
      decide
    · exact absurd hk Std.ExtTreeMap.not_mem_empty
  · have hrs : resultOf (sampleEnv namedBincode) sampleGraph (.scan [] none (some "a")) sampleDraws
        namedStore = .ok rs := hrs
    rw [hrs] at hcolumns
    have hcolumns : rs.columns = _ := Except.ok.inj hcolumns
    have hne : "b" ∉ rs.columns ∧ ∀ p, dotted "b" p ∉ rs.columns := by
      rw [hcolumns]
      refine ⟨by decide, fun p hp => ?_⟩
      have hbare : ∀ name : String, DotFree name → dotted "b" p ≠ name := fun name hname h =>
        hname.ne_dotted "b" p h.symm
      have hdotted : dotted "b" p ≠ dotted "a" "name" := fun h =>
        absurd ((dotted_inj hb ha).mp h).1 (by decide)
      simp [hdotted, hbare _ (show DotFree "__node_id" by decide), hbare _ ha,
        hbare _ (show DotFree "__labels" by decide), hbare _ (show DotFree "name" by decide)] at hp
    refine ⟨fun v hv => ?_, fun u hu => ?_⟩
    · rcases hv with hv | hv <;> cases hv
      exact ⟨hb, hne⟩
    · cases hu

/-- The name of `a` is read. -/
theorem propertyAccess_named : evaluate (sampleEnv namedBincode) acquaintancesRow
    (.propertyAccess (.identifier "a") "name") = .ok (.string "Ann") :=
  (propertyAccess_iff tidy_acquaintances (.self _ _ _) resultOf_acquaintances List.mem_cons_self
    (v := "a") (p := "name") (x := nodeValue named) (by decide) rfl rfl).mpr nofun

/-- The friend has no name, and `b.name` reads that of `a`. -/
theorem not_propertyAccess_nameless :
    resultOf (sampleEnv namedBincode) sampleGraph acquaintances sampleDraws namedStore =
      .ok ⟨acquaintancesRow.columns, [acquaintancesRow]⟩ ∧
    acquaintancesRow.get "b" = some (nodeValue friend) ∧
    propertyOf (nodeValue friend) "name" = .null ∧
    evaluate (sampleEnv namedBincode) acquaintancesRow (.propertyAccess (.identifier "b") "name") =
      .ok (.string "Ann") :=
  ⟨resultOf_acquaintances, by decide, by decide, by decide⟩

end Named

end Synaptica.Exec
