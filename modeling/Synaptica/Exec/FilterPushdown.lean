import Synaptica.Exec.Grouping
import Synaptica.Exec.Rows
import Synaptica.Gql.Optimizer
import Synaptica.Lib.Selection

/-!
# Filter pushdown

`FilterPushdown` moves a filter below a projection and leaves the predicate as it is. The predicate then
sees the rows that go into the projection and no longer those that come out of it.

* `Commutes` — what predicate and projection have to have in common for the two orders to agree.
* `optimize_preserves_iff` — an optimized plan answers what the plan answers exactly where they do.
-/

namespace Synaptica.Exec

open Gql Storage

variable (env : Env)

/-! ## A filter selects -/

/-- The predicate is true of a record. -/
def passes (predicate : Expression) (record : Record) : Bool :=
  evaluate env record predicate = .ok (.bool true)

/-- The predicate has a value on every record. -/
def Evaluates (predicate : Expression) (records : List Record) : Prop :=
  ∀ r ∈ records, ∃ v, evaluate env r predicate = .ok v

theorem filterRecords_eq_ok_iff {predicate : Expression} {records kept : List Record} :
    filterRecords env predicate records = .ok kept ↔
      Evaluates env predicate records ∧ kept = records.filter (passes env predicate) := by
  induction records generalizing kept with
  | nil =>
    rw [filterRecords, Except.ok.injEq]
    constructor
    · intro h
      exact ⟨fun r hr => absurd hr List.not_mem_nil, h.symm⟩
    · rintro ⟨_, h⟩
      exact h.symm
  | cons r records ih =>
    simp only [filterRecords, Except.bind_eq_ok, Except.pure_eq_ok, ih]
    constructor
    · rintro ⟨v, hv, rest, ⟨hall, hrest⟩, hkept⟩
      refine ⟨List.forall_mem_cons.mpr ⟨⟨v, hv⟩, hall⟩, ?_⟩
      rw [← hkept, hrest, List.filter_cons]
      simp only [passes, hv, Except.ok.injEq, decide_eq_true_eq]
    · rintro ⟨hall, hkept⟩
      obtain ⟨⟨v, hv⟩, hall⟩ := List.forall_mem_cons.mp hall
      refine ⟨v, hv, _, ⟨hall, rfl⟩, ?_⟩
      rw [hkept, List.filter_cons]
      simp only [passes, hv, Except.ok.injEq, decide_eq_true_eq]

/-- The rows of a result set carry its columns. -/
def ResultSet.Headed (rs : ResultSet) : Prop := ∀ r ∈ rs.records, r.columns = rs.columns

theorem ResultSet.headed_ofRows (columns : List String) (rows : List (List Value)) :
    (ResultSet.ofRows columns rows).Headed := by
  intro r hr
  obtain ⟨row, -, rfl⟩ := List.mem_map.mp hr
  rfl

/-- The records of which the predicate is true. -/
def selected (predicate : Expression) (rs : ResultSet) : ResultSet :=
  ⟨rs.columns, rs.records.filter (passes env predicate)⟩

/-- **What a filter yields**. -/
theorem execFilter_eq_ok_iff {input rs : ResultSet} {predicate : Expression} (hinput : input.Headed) :
    execFilter env input predicate = .ok rs ↔
      Evaluates env predicate input.records ∧ rs = selected env predicate input := by
  have hrows : ResultSet.ofRows input.columns ((input.records.filter (passes env predicate)).map (·.values)) =
      selected env predicate input := by
    rw [selected, ResultSet.ofRows, List.map_map, ResultSet.mk.injEq]
    refine ⟨rfl, ?_⟩
    nth_rewrite 2 [← List.map_id (input.records.filter (passes env predicate))]
    refine List.map_congr_left fun r hr => ?_
    show (⟨input.columns, r.values⟩ : Record) = r
    rw [← hinput r (List.mem_filter.mp hr).1]
  simp only [execFilter, Except.bind_eq_ok, Except.pure_eq_ok, filterRecords_eq_ok_iff]
  constructor
  · rintro ⟨kept, ⟨hall, hkept⟩, hrs⟩
    exact ⟨hall, by rw [← hrs, hkept, hrows]⟩
  · rintro ⟨hall, hrs⟩
    exact ⟨_, ⟨hall, rfl⟩, by rw [hrs, hrows]⟩

/-! ## Projections without aggregates -/

/-- The columns of a projection without aggregates. -/
def plainColumns (input : ResultSet) (expressions : List Expression) (aliases : List (Option String)) :
    List String :=
  projectColumns expressions aliases ++ internalColumns input.columns (projectColumns expressions aliases)

/-- The row that a projection without aggregates makes of a record. -/
def plainRow (input : ResultSet) (expressions : List Expression) (aliases : List (Option String))
    (record : Record) : Except ExecError (List Value) :=
  projectRow env expressions
    ((internalColumns input.columns (projectColumns expressions aliases)).map input.columnIndex) record

theorem projectRows_eq_mapM (expressions : List Expression) (internal : List (Option Nat))
    (records : List Record) :
    projectRows env expressions internal records = records.mapM (projectRow env expressions internal) := by
  induction records with
  | nil => rfl
  | cons r records ih => rw [projectRows, ih, List.mapM_cons]

/-- The predicate is true of a record just when it is true of the row made of it. -/
def RowsAgree (input : ResultSet) (expressions : List Expression) (aliases : List (Option String))
    (predicate : Expression) : Prop :=
  ∀ r ∈ input.records, ∀ row, plainRow env input expressions aliases r = .ok row →
    passes env predicate r = passes env predicate ⟨plainColumns input expressions aliases, row⟩

/-- Of an input without columns: the predicate is true of the one row that comes out, and no two records are
filtered out. -/
def StandaloneAgrees (input : ResultSet) (expressions : List Expression) (aliases : List (Option String))
    (predicate : Expression) : Prop :=
  (∀ row, evaluateAll env ⟨[], []⟩ expressions = .ok row →
    passes env predicate ⟨projectColumns expressions aliases, row⟩) ∧
  (input.records.length ≤ 1 ∨ passes env predicate ⟨[], []⟩)

section Answers

variable {α : Type} {f : α → Except ExecError (List Value)}

/-- The row that a step answers where it does not fail. -/
def answerOf (f : α → Except ExecError (List Value)) (a : α) : List Value := (f a).toOption.getD []

theorem answerOf_of_ok {a : α} {row : List Value} (h : f a = .ok row) : answerOf f a = row := by
  rw [answerOf, h]
  rfl

theorem mapM_eq_ok_answers {l : List α} {rows : List (List Value)} (h : l.mapM f = .ok rows) :
    (∀ a ∈ l, f a = .ok (answerOf f a)) ∧ rows = l.map (answerOf f) := by
  have hall : ∀ a ∈ l, f a = .ok (answerOf f a) := by
    intro a ha
    obtain ⟨row, hrow⟩ := List.forall_ok_of_mapM_eq_ok h a ha
    rw [answerOf_of_ok hrow, hrow]
  refine ⟨hall, ?_⟩
  rw [List.mapM_eq_ok_map hall] at h
  exact (Except.ok.inj h).symm

end Answers

variable {env} {input projected out : ResultSet} {expressions : List Expression}
  {aliases : List (Option String)} {predicate : Expression}

theorem execProject_eq_plain (hplain : anyContainsAggregate expressions = false) (input : ResultSet)
    (aliases : List (Option String)) (hinput : (input.records.isEmpty && input.columns.isEmpty) = false) :
    execProject env input expressions aliases = (do
      let rows ← input.records.mapM (plainRow env input expressions aliases)
      pure (.ofRows (plainColumns input expressions aliases) rows)) := by
  rw [execProject, if_neg (by rw [hplain]; exact Bool.false_ne_true)]
  show (if _ then _ else _) = _
  rw [if_neg (by rw [hinput]; exact Bool.false_ne_true), projectRows_eq_mapM]
  rfl

/-- **Rows with columns**: the two orders agree where the predicate agrees on every record and its row. -/
theorem execProject_selected_iff_rows (hplain : anyContainsAggregate expressions = false)
    (hcolumns : input.columns ≠ []) (hproject : execProject env input expressions aliases = .ok projected) :
    execProject env (selected env predicate input) expressions aliases =
        .ok (selected env predicate projected) ↔
      RowsAgree env input expressions aliases predicate := by
  have hsome : ∀ records : List Record, (records.isEmpty && input.columns.isEmpty) = false := by
    intro records
    rw [List.isEmpty_eq_false_iff.mpr hcolumns, Bool.and_false]
  rw [execProject_eq_plain hplain input _ (hsome _)] at hproject
  obtain ⟨rows, hrows, hproject⟩ := Except.bind_eq_ok.mp hproject
  obtain ⟨hall, rfl⟩ := mapM_eq_ok_answers hrows
  cases hproject
  let made (r : Record) : Record :=
    ⟨plainColumns input expressions aliases, answerOf (plainRow env input expressions aliases) r⟩
  -- the projection of the records that are left
  have hafter : execProject env (selected env predicate input) expressions aliases =
      .ok ⟨plainColumns input expressions aliases, (input.records.filter (passes env predicate)).map made⟩ := by
    rw [execProject_eq_plain hplain (selected env predicate input) _ (hsome _)]
    show (List.mapM (plainRow env input expressions aliases) _ >>= _) = _
    rw [selected, List.mapM_eq_ok_map fun r hr => hall r (List.mem_filter.mp hr).1, Except.ok_bind]
    show Except.ok (ResultSet.ofRows _ _) = _
    rw [ResultSet.ofRows, List.map_map]
    rfl
  have hbefore : selected env predicate (.ofRows (plainColumns input expressions aliases)
      (input.records.map (answerOf (plainRow env input expressions aliases)))) =
      ⟨plainColumns input expressions aliases, (input.records.map made).filter (passes env predicate)⟩ := by
    rw [selected, ResultSet.ofRows, List.map_map]
    rfl
  rw [hafter, hbefore, Except.ok.injEq, ResultSet.mk.injEq, List.map_filter_eq_filter_map_iff]
  constructor
  · rintro ⟨_, h⟩ r hr row hrow
    rw [h r hr, ← answerOf_of_ok hrow]
  · intro h
    exact ⟨rfl, fun r hr => h r hr _ (hall r hr)⟩

/-- Records without columns are all empty. A projection makes the same row of each, and one row of none. -/
theorem execProject_replicate (hplain : anyContainsAggregate expressions = false)
    (aliases : List (Option String)) (n : Nat) :
    execProject env ⟨[], List.replicate n ⟨[], []⟩⟩ expressions aliases = (do
      let values ← evaluateAll env ⟨[], []⟩ expressions
      pure (ResultSet.ofRows (projectColumns expressions aliases) (List.replicate (max n 1) values))) := by
  have hcolumns : plainColumns ⟨[], List.replicate n ⟨[], []⟩⟩ expressions aliases =
      projectColumns expressions aliases := List.append_nil _
  cases n with
  | zero =>
    rw [execProject, if_neg (by rw [hplain]; exact Bool.false_ne_true)]
    show (evaluateAll env ⟨[], []⟩ expressions >>= fun values =>
      pure (ResultSet.ofRows (projectColumns expressions aliases ++ []) [values])) = _
    rw [List.append_nil]
    rfl
  | succ n =>
    have hrow : plainRow env ⟨[], List.replicate (n + 1) ⟨[], []⟩⟩ expressions aliases =
        fun r => evaluateAll env r expressions := by
      funext r
      show (evaluateAll env r expressions >>= fun values => pure (values ++ [])) = _
      simp only [List.append_nil, bind_pure]
    rw [execProject_eq_plain hplain _ _ rfl, hcolumns, hrow]
    show (List.mapM _ (List.replicate (n + 1) _) >>= _) = _
    cases hvalues : evaluateAll env ⟨[], []⟩ expressions with
    | error e =>
      rw [List.replicate_succ, List.mapM_cons, hvalues]
      rfl
    | ok values =>
      let row : Record → List Value := fun _ => values
      have hall : ∀ r ∈ List.replicate (n + 1) (⟨[], []⟩ : Record), evaluateAll env r expressions = .ok (row r) := by
        intro r hr
        rw [List.eq_of_mem_replicate hr, hvalues]
      rw [List.mapM_eq_ok_map hall, List.map_replicate, Except.ok_bind, Except.ok_bind,
        Nat.max_eq_left (Nat.le_add_left 1 n)]

/-- **Rows without columns**: one comes out also when none is left, so the predicate must not drop any. -/
theorem execProject_selected_iff_standalone (hplain : anyContainsAggregate expressions = false)
    (hinput : input.Rectangular) (hcolumns : input.columns = [])
    (hproject : execProject env input expressions aliases = .ok projected) :
    execProject env (selected env predicate input) expressions aliases =
        .ok (selected env predicate projected) ↔
      StandaloneAgrees env input expressions aliases predicate := by
  obtain ⟨columns, records⟩ := input
  obtain rfl : columns = [] := hcolumns
  have hempty : records = List.replicate records.length ⟨[], []⟩ := by
    rw [List.eq_replicate_iff]
    refine ⟨rfl, fun r hr => ?_⟩
    obtain ⟨hcols, hvals⟩ := hinput r hr
    exact congrArg₂ Record.mk hcols (List.length_eq_zero_iff.mp hvals)
  generalize hn : records.length = n at hempty
  subst hempty
  rw [execProject_replicate hplain] at hproject
  obtain ⟨values, hvalues, hproject⟩ := Except.bind_eq_ok.mp hproject
  cases hproject
  let row : Record := ⟨projectColumns expressions aliases, values⟩
  let m : Nat := if passes env predicate ⟨[], []⟩ then n else 0
  have hselected : selected env predicate ⟨[], List.replicate n ⟨[], []⟩⟩ = ⟨[], List.replicate m ⟨[], []⟩⟩ := by
    rw [selected, List.filter_replicate]
    by_cases hpass : passes env predicate ⟨[], []⟩ = true
    · rw [if_pos hpass, show m = n from if_pos hpass]
    · rw [if_neg hpass, show m = 0 from if_neg hpass]
      rfl
  have hbefore : selected env predicate (.ofRows (projectColumns expressions aliases)
      (List.replicate (max n 1) values)) = ⟨projectColumns expressions aliases,
        if passes env predicate row then List.replicate (max n 1) row else []⟩ := by
    rw [selected, ResultSet.ofRows, List.map_replicate, List.filter_replicate]
  have hagree : StandaloneAgrees env ⟨[], List.replicate n ⟨[], []⟩⟩ expressions aliases predicate ↔
      passes env predicate row = true ∧ (n ≤ 1 ∨ passes env predicate ⟨[], []⟩ = true) := by
    rw [StandaloneAgrees, hvalues]
    simp only [Except.ok.injEq, forall_eq', List.length_replicate]
    rfl
  rw [hselected, execProject_replicate hplain, hvalues, Except.ok_bind, hbefore, hagree]
  show Except.ok (ResultSet.mk _ _) = _ ↔ _
  rw [List.map_replicate, Except.ok.injEq, ResultSet.mk.injEq, eq_self, true_and]
  show List.replicate (max m 1) row = _ ↔ _
  by_cases hrow : passes env predicate row = true
  · rw [if_pos hrow, List.replicate_left_inj, eq_true hrow, true_and]
    by_cases hpass : passes env predicate ⟨[], []⟩ = true
    · rw [show m = n from if_pos hpass, eq_true hpass, or_true]
      simp
    · rw [show m = 0 from if_neg hpass]
      rw [eq_false hpass, or_false]
      omega
  · rw [if_neg hrow]
    constructor
    · intro h
      have hlen := congrArg List.length h
      simp at hlen
    · rintro ⟨h, _⟩
      exact absurd h hrow

/-! ## Projections with aggregates -/

variable (env)

/-- The items that a projection with aggregates groups by. -/
def groupedBy (expressions : List Expression) : List Expression :=
  expressions.filter fun e => !containsAggregate e

/-- The row of the records of one group; of no records it has the defaults. -/
def summary (expressions : List Expression) : List Record → Except ExecError (List Value)
  | [] => .ok (expressions.map emptyAggregate)
  | first :: rest => expressions.mapM (groupValue env first (first :: rest))

/-- Where nothing is grouped by: the predicate is true of the one row that comes out, and that is also the
row of those records of which it is true. -/
def SummaryAgrees (input : ResultSet) (expressions : List Expression) (aliases : List (Option String))
    (predicate : Expression) : Prop :=
  ∀ row, summary env expressions input.records = .ok row →
    passes env predicate ⟨projectColumns expressions aliases, row⟩ ∧
    summary env expressions (input.records.filter (passes env predicate)) = .ok row

/-- The records that are in the group of `r`. -/
def groupOf (input : ResultSet) (expressions : List Expression) (r : Record) : List Record :=
  input.records.filter fun s =>
    groupKey env (groupedBy expressions) s = groupKey env (groupedBy expressions) r

/-- Group by group: where the predicate is true of the group's row, that is also the row of those of its
records of which it is true, and elsewhere it is true of none of its records. -/
def GroupsAgree (input : ResultSet) (expressions : List Expression) (aliases : List (Option String))
    (predicate : Expression) : Prop :=
  ∀ r ∈ input.records, ∀ row, summary env expressions (groupOf env input expressions r) = .ok row →
    let kept := (groupOf env input expressions r).filter (passes env predicate)
    if passes env predicate ⟨projectColumns expressions aliases, row⟩ then
      kept ≠ [] ∧ summary env expressions kept = .ok row
    else kept = []

variable {env}

theorem summary_of_ne_nil {first : Record} {rest : List Record} :
    summary env expressions (first :: rest) = expressions.mapM (groupValue env first (first :: rest)) := rfl

/-- Without grouping, the records are one group, also when there are none. -/
theorem execProject_ungrouped (hagg : anyContainsAggregate expressions = true)
    (hungrouped : groupedBy expressions = []) (input : ResultSet) (aliases : List (Option String)) :
    execProject env input expressions aliases = (do
      let row ← summary env expressions input.records
      pure (ResultSet.ofRows (projectColumns expressions aliases) [row])) := by
  have hgroups : groupRecords env [] ∅ input.records =
      .ok (OrderedMap.collect (fun _ => "") ∅ input.records) :=
    @groupRecords_of_forall env [] ∅ input.records (fun _ => []) fun _ _ => rfl
  rw [execProject, if_pos hagg, execProjectWithAggregation]
  show (groupRecords env (groupedBy expressions) ∅ input.records >>= fun groups =>
    if groups.isEmpty && (groupedBy expressions).isEmpty then _ else _) = _
  rw [hungrouped, hgroups, Except.ok_bind]
  cases hrecords : input.records with
  | nil => rfl
  | cons first rest =>
    have hlist := OrderedMap.toList_collect_of_forall (List.cons_ne_nil first rest)
      (fun _ _ => rfl : ∀ r ∈ first :: rest, (fun _ : Record => "") r = "")
    have hsome : (OrderedMap.collect (fun _ : Record => "") ∅ (first :: rest)).isEmpty = false := by
      rw [← Std.ExtTreeMap.isEmpty_toList, hlist]
      rfl
    rw [hsome, hlist, summary_of_ne_nil]
    show (List.mapM _ [_] >>= _) = _
    rw [List.mapM_cons, List.mapM_nil]
    show ((expressions.mapM (groupValue env first (first :: rest)) >>= _) >>= _) = _
    rw [bind_assoc]
    rfl

/-- **Without grouping**: the one row must stay, and stay the same. -/
theorem execProject_selected_iff_summary (hagg : anyContainsAggregate expressions = true)
    (hungrouped : groupedBy expressions = [])
    (hproject : execProject env input expressions aliases = .ok projected) :
    execProject env (selected env predicate input) expressions aliases =
        .ok (selected env predicate projected) ↔
      SummaryAgrees env input expressions aliases predicate := by
  rw [execProject_ungrouped hagg hungrouped] at hproject ⊢
  obtain ⟨row, hrow, hproject⟩ := Except.bind_eq_ok.mp hproject
  cases hproject
  have hbefore : selected env predicate (.ofRows (projectColumns expressions aliases) [row]) =
      ⟨projectColumns expressions aliases,
        if passes env predicate ⟨projectColumns expressions aliases, row⟩ then
          [⟨projectColumns expressions aliases, row⟩] else []⟩ := by
    rw [selected, ResultSet.ofRows, List.map_singleton, List.filter_singleton, Bool.cond_eq_ite]
  rw [hbefore, SummaryAgrees, hrow]
  constructor
  · intro h values hvalues
    cases hvalues
    obtain ⟨after, hafter, h⟩ := Except.bind_eq_ok.mp h
    have hrecords := congrArg ResultSet.records (Except.ok.inj h)
    by_cases hpass : passes env predicate ⟨projectColumns expressions aliases, row⟩ = true
    · rw [if_pos hpass] at hrecords
      have hsame := congrArg Record.values (List.singleton_inj.mp hrecords)
      exact ⟨hpass, by rw [← show after = row from hsame]; exact hafter⟩
    · rw [if_neg hpass] at hrecords
      cases hrecords
  · intro h
    obtain ⟨hpass, hafter⟩ := h row rfl
    rw [if_pos hpass, selected, hafter]
    rfl

section Grouped

variable {tuple : Record → List String}

/-- With grouping there is one row for each group. -/
theorem execProject_grouped (hagg : anyContainsAggregate expressions = true)
    (hgrouped : groupedBy expressions ≠ []) (aliases : List (Option String))
    (hall : ∀ r ∈ input.records, groupTexts env (groupedBy expressions) r = .ok (tuple r)) :
    execProject env input expressions aliases = (do
      let rows ← (OrderedMap.collect (fun r => keyText (tuple r)) ∅ input.records).toList.mapM
        fun group => summary env expressions group.2
      pure (ResultSet.ofRows (projectColumns expressions aliases) rows)) := by
  rw [execProject, if_pos hagg, execProjectWithAggregation]
  show (groupRecords env (groupedBy expressions) ∅ input.records >>= fun groups =>
    if groups.isEmpty && (groupedBy expressions).isEmpty then _ else _) = _
  rw [groupRecords_of_forall env hall, Except.ok_bind, List.isEmpty_eq_false_iff.mpr hgrouped, Bool.and_false]
  show (List.mapM _ _ >>= _) = _
  refine congrArg (· >>= _) (List.mapM_congr_left fun group hmem => ?_)
  obtain ⟨-, hne⟩ := OrderedMap.mem_toList_collect.mp hmem
  obtain ⟨key, records⟩ := group
  cases records with
  | nil => exact absurd rfl hne
  | cons first rest => rfl

/-- The texts of an output row at the items that are grouped by. -/
def rowKey (env : Env) (expressions : List Expression) (row : List Value) : String :=
  keyText (texts env ((expressions.zip row).filterMap fun q => if containsAggregate q.1 then none else some q.2))

/-- The row of a group shows the key of the group. -/
theorem rowKey_of_summary {group : List Record} {key : String} {row : List Value} (hne : group ≠ [])
    (hall : ∀ r ∈ group, groupTexts env (groupedBy expressions) r = .ok (tuple r))
    (hkey : ∀ r ∈ group, keyText (tuple r) = key) (h : summary env expressions group = .ok row) :
    rowKey env expressions row = key := by
  cases group with
  | nil => exact absurd rfl hne
  | cons first rest =>
    have hvalues := evaluateAll_filter_not env (p := containsAggregate)
      (fun e he => by cases e <;> first | rfl | cases he) h
    have htexts := hall first List.mem_cons_self
    rw [groupTexts, groupedBy, hvalues] at htexts
    rw [rowKey, show texts env _ = tuple first from Except.ok.inj htexts]
    exact hkey first List.mem_cons_self

/-- The agreement of one group, as `GroupsAgree` demands it of the group of each record. -/
def GroupAgrees (env : Env) (expressions : List Expression) (aliases : List (Option String))
    (predicate : Expression) (group : List Record) : Prop :=
  ∀ row, summary env expressions group = .ok row →
    if passes env predicate ⟨projectColumns expressions aliases, row⟩ then
      group.filter (passes env predicate) ≠ [] ∧
        summary env expressions (group.filter (passes env predicate)) = .ok row
    else group.filter (passes env predicate) = []

/-- The groups of the records are those that collecting them by key yields. -/
theorem groupsAgree_iff_collect
    (hall : ∀ r ∈ input.records, groupTexts env (groupedBy expressions) r = .ok (tuple r)) :
    GroupsAgree env input expressions aliases predicate ↔
      ∀ g ∈ (OrderedMap.collect (fun r => keyText (tuple r)) ∅ input.records).toList,
        GroupAgrees env expressions aliases predicate g.2 := by
  have hgroup : ∀ r ∈ input.records, groupOf env input expressions r =
      OrderedMap.ofKey (fun r => keyText (tuple r)) input.records (keyText (tuple r)) := by
    intro r hr
    refine List.filter_congr fun s hs => ?_
    rw [groupKey_eq, groupKey_eq, hall s hs, hall r hr]
    exact decide_eq_decide.mpr ⟨Except.ok.inj, congrArg Except.ok⟩
  constructor
  · intro h g hg
    obtain ⟨hrecords, hne⟩ := OrderedMap.mem_toList_collect.mp hg
    obtain ⟨r, hr⟩ := List.exists_mem_of_ne_nil _ hne
    obtain ⟨hr, hkey⟩ := OrderedMap.mem_ofKey.mp (hrecords ▸ hr)
    have hagree := h r hr
    rw [hgroup r hr, hkey, ← hrecords] at hagree
    exact hagree
  · intro h r hr
    refine h (keyText (tuple r), groupOf env input expressions r) ?_
    refine OrderedMap.mem_toList_collect.mpr ⟨hgroup r hr, ?_⟩
    apply List.ne_nil_of_mem
    exact List.mem_filter.mpr ⟨hr, decide_eq_true rfl⟩

/-- What is left of a group after the filter. -/
def cut (env : Env) (predicate : Expression) (g : String × List Record) : Option (String × List Record) :=
  if g.2.filter (passes env predicate) = [] then none else some (g.1, g.2.filter (passes env predicate))

/-- The output row of a group. -/
def groupRecord (env : Env) (expressions : List Expression) (aliases : List (Option String))
    (g : String × List Record) : Record :=
  ⟨projectColumns expressions aliases, answerOf (fun g => summary env expressions g.2) g⟩

theorem groupAgrees_iff {g : String × List Record} {row : List Value}
    (hrow : summary env expressions g.2 = .ok row) :
    GroupAgrees env expressions aliases predicate g.2 ↔
      (∀ g', cut env predicate g = some g' → ∃ row, summary env expressions g'.2 = .ok row) ∧
      Option.guard (passes env predicate) (groupRecord env expressions aliases g) =
        (cut env predicate g).map (groupRecord env expressions aliases) := by
  have hrecord : ∀ g' row', summary env expressions g'.2 = .ok row' →
      groupRecord env expressions aliases g' = ⟨projectColumns expressions aliases, row'⟩ := by
    intro g' row' h
    have hanswer := @answerOf_of_ok _ (fun g : String × List Record => summary env expressions g.2) g' row' h
    rw [groupRecord, hanswer]
  rw [hrecord g row hrow, GroupAgrees, hrow]
  simp only [Except.ok.injEq, forall_eq', Option.guard]
  by_cases hpass : passes env predicate ⟨projectColumns expressions aliases, row⟩ = true
  · by_cases hnil : g.2.filter (passes env predicate) = []
    · rw [if_pos hpass, cut, if_pos hnil, hnil]
      simp [hpass]
    · rw [if_pos hpass, cut, if_neg hnil]
      simp only [hnil, not_false_eq_true, hpass, if_true, Option.map_some, Option.some.injEq, forall_eq', true_and,
        ne_eq]
      constructor
      · intro h
        exact ⟨⟨row, h⟩, (hrecord _ row h).symm⟩
      · rintro ⟨⟨row', h'⟩, hsame⟩
        rw [hrecord _ row' h'] at hsame
        rw [h', show row = row' from congrArg Record.values hsame]
  · by_cases hnil : g.2.filter (passes env predicate) = []
    · rw [if_neg hpass, cut, if_pos hnil]
      simp [hpass, hnil]
    · rw [if_neg hpass, cut, if_neg hnil]
      simp [hpass, hnil]

/-- **With grouping**: the two orders agree where they agree on every group. -/
theorem execProject_selected_iff_groups (hagg : anyContainsAggregate expressions = true)
    (hgrouped : groupedBy expressions ≠ [])
    (hproject : execProject env input expressions aliases = .ok projected) :
    execProject env (selected env predicate input) expressions aliases =
        .ok (selected env predicate projected) ↔
      GroupsAgree env input expressions aliases predicate := by
  let tuple (r : Record) : List String := (groupTexts env (groupedBy expressions) r).toOption.getD []
  have hall : ∀ r ∈ input.records, groupTexts env (groupedBy expressions) r = .ok (tuple r) := by
    rw [execProject, if_pos hagg, execProjectWithAggregation] at hproject
    obtain ⟨groups, hgroups, -⟩ := Except.bind_eq_ok.mp hproject
    have hgroups : groupRecords env (groupedBy expressions) ∅ input.records = .ok groups := hgroups
    exact (groupRecords_eq_ok env hgroups tuple fun r _ t ht => by simp [tuple, ht, Except.toOption]).1
  have hallLeft : ∀ r ∈ (selected env predicate input).records,
      groupTexts env (groupedBy expressions) r = .ok (tuple r) :=
    fun r hr => hall r (List.mem_filter.mp hr).1
  rw [execProject_grouped hagg hgrouped aliases hall] at hproject
  obtain ⟨rows, hrows, hproject⟩ := Except.bind_eq_ok.mp hproject
  obtain ⟨hrow, rfl⟩ := mapM_eq_ok_answers hrows
  cases hproject
  let groups := (OrderedMap.collect (fun r => keyText (tuple r)) ∅ input.records).toList
  have hbefore : selected env predicate (.ofRows (projectColumns expressions aliases)
      (groups.map (answerOf fun g => summary env expressions g.2))) = ⟨projectColumns expressions aliases,
        groups.filterMap fun g => Option.guard (passes env predicate) (groupRecord env expressions aliases g)⟩ := by
    rw [selected, ResultSet.ofRows, List.map_map, ← List.filterMap_eq_filter, List.filterMap_map]
    rfl
  -- the groups of the records that are left
  have hgroups : (OrderedMap.collect (fun r => keyText (tuple r)) ∅ (selected env predicate input).records).toList =
      groups.filterMap (cut env predicate) := OrderedMap.toList_collect_filter _ _
  rw [execProject_grouped hagg hgrouped aliases hallLeft, hgroups, hbefore, groupsAgree_iff_collect hall]
  have hagree : (∀ g ∈ groups, GroupAgrees env expressions aliases predicate g.2) ↔
      ∀ g ∈ groups, (∀ g', cut env predicate g = some g' → ∃ row, summary env expressions g'.2 = .ok row) ∧
        Option.guard (passes env predicate) (groupRecord env expressions aliases g) =
          (cut env predicate g).map (groupRecord env expressions aliases) :=
    forall₂_congr fun g hg => groupAgrees_iff (hrow g hg)
  rw [hagree]
  have hmembers : ∀ g ∈ groups, (∀ r ∈ g.2, r ∈ input.records ∧ keyText (tuple r) = g.1) ∧ g.2 ≠ [] := by
    intro g hg
    obtain ⟨hmem, hne⟩ := OrderedMap.mem_toList_collect.mp hg
    refine ⟨fun r hr => ?_, hne⟩
    rw [hmem] at hr
    exact OrderedMap.mem_ofKey.mp hr
  have hrecords : ((groups.filterMap (cut env predicate)).map (groupRecord env expressions aliases)) =
      groups.filterMap fun g => (cut env predicate g).map (groupRecord env expressions aliases) :=
    List.map_filterMap
  constructor
  · intro h
    obtain ⟨rows, hrows, h⟩ := Except.bind_eq_ok.mp h
    obtain ⟨hleft, rfl⟩ := mapM_eq_ok_answers hrows
    have hleft : ∀ g ∈ groups, ∀ g', cut env predicate g = some g' →
        ∃ row, summary env expressions g'.2 = .ok row :=
      fun g hg g' hg' => ⟨_, hleft g' (List.mem_filterMap.mpr ⟨g, hg, hg'⟩)⟩
    have h := congrArg ResultSet.records (Except.ok.inj h)
    rw [ResultSet.ofRows, List.map_map] at h
    have h := hrecords.symm.trans h
    -- each of the two rows of a group shows the key of the group
    have htag : ∀ g ∈ groups, ∀ b, Option.guard (passes env predicate) (groupRecord env expressions aliases g) =
        some b → rowKey env expressions b.values = g.1 := by
      intro g hg b hb
      obtain ⟨rfl, -⟩ := Option.guard_eq_some_iff.mp hb
      obtain ⟨hmem, hne⟩ := hmembers g hg
      exact rowKey_of_summary hne (fun r hr => hall r (hmem r hr).1) (fun r hr => (hmem r hr).2) (hrow g hg)
    have htagLeft : ∀ g ∈ groups, ∀ b, (cut env predicate g).map (groupRecord env expressions aliases) = some b →
        rowKey env expressions b.values = g.1 := by
      intro g hg b hb
      obtain ⟨g', hcut, rfl⟩ := Option.map_eq_some_iff.mp hb
      obtain ⟨row, hleftRow⟩ := hleft g hg g' hcut
      obtain ⟨hmem, -⟩ := hmembers g hg
      by_cases hnil : g.2.filter (passes env predicate) = []
      · rw [cut, if_pos hnil] at hcut
        cases hcut
      · rw [cut, if_neg hnil] at hcut
        cases hcut
        show rowKey env expressions (answerOf (fun g : String × List Record => summary env expressions g.2) _) = _
        rw [@answerOf_of_ok _ (fun g : String × List Record => summary env expressions g.2) _ row hleftRow]
        exact rowKey_of_summary hnil (fun r hr => hall r (hmem r (List.mem_filter.mp hr).1).1)
          (fun r hr => (hmem r (List.mem_filter.mp hr).1).2) hleftRow
    have hsame := (List.filterMap_eq_filterMap_iff (OrderedMap.nodup_keys_toList _) htag htagLeft).mp h.symm
    exact fun g hg => ⟨hleft g hg, hsame g hg⟩
  · intro h
    have hleft : ∀ g' ∈ groups.filterMap (cut env predicate), summary env expressions g'.2 =
        .ok (answerOf (fun g : String × List Record => summary env expressions g.2) g') := by
      intro g' hg'
      obtain ⟨g, hg, hcut⟩ := List.mem_filterMap.mp hg'
      obtain ⟨row, hrow⟩ := (h g hg).1 g' hcut
      rw [hrow, @answerOf_of_ok _ (fun g : String × List Record => summary env expressions g.2) g' row hrow]
    rw [List.mapM_eq_ok_map hleft, Except.ok_bind, List.filterMap_congr fun g hg => (h g hg).2, ← hrecords]
    show Except.ok (ResultSet.ofRows _ _) = _
    rw [ResultSet.ofRows, List.map_map]
    rfl

end Grouped

/-! ## The two orders -/

/-- **When filter and projection commute.** The predicate has a value on every record that goes into the
projection, and it selects the same rows from there. -/
structure Commutes (env : Env) (input : ResultSet) (expressions : List Expression)
    (aliases : List (Option String)) (predicate : Expression) : Prop where
  evaluates : Evaluates env predicate input.records
  rows : anyContainsAggregate expressions = false → input.columns ≠ [] →
    RowsAgree env input expressions aliases predicate
  standalone : anyContainsAggregate expressions = false → input.columns = [] →
    StandaloneAgrees env input expressions aliases predicate
  summary : anyContainsAggregate expressions = true → groupedBy expressions = [] →
    SummaryAgrees env input expressions aliases predicate
  groups : anyContainsAggregate expressions = true → groupedBy expressions ≠ [] →
    GroupsAgree env input expressions aliases predicate

/-- One of the four cases applies to a projection. -/
theorem execProject_selected_iff (hinput : input.Rectangular)
    (hproject : execProject env input expressions aliases = .ok projected) :
    execProject env (selected env predicate input) expressions aliases =
        .ok (selected env predicate projected) ∧ Evaluates env predicate input.records ↔
      Commutes env input expressions aliases predicate := by
  rw [and_comm]
  cases hagg : anyContainsAggregate expressions with
  | false =>
    by_cases hcolumns : input.columns = []
    · rw [execProject_selected_iff_standalone hagg hinput hcolumns hproject]
      constructor
      · rintro ⟨heval, h⟩
        exact ⟨heval, fun _ hne => absurd hcolumns hne, fun _ _ => h,
          fun ht => absurd (hagg.symm.trans ht) Bool.false_ne_true,
          fun ht => absurd (hagg.symm.trans ht) Bool.false_ne_true⟩
      · intro h
        exact ⟨h.evaluates, h.standalone hagg hcolumns⟩
    · rw [execProject_selected_iff_rows hagg hcolumns hproject]
      constructor
      · rintro ⟨heval, h⟩
        exact ⟨heval, fun _ _ => h, fun _ hnil => absurd hnil hcolumns,
          fun ht => absurd (hagg.symm.trans ht) Bool.false_ne_true,
          fun ht => absurd (hagg.symm.trans ht) Bool.false_ne_true⟩
      · intro h
        exact ⟨h.evaluates, h.rows hagg hcolumns⟩
  | true =>
    by_cases hgrouped : groupedBy expressions = []
    · rw [execProject_selected_iff_summary hagg hgrouped hproject]
      constructor
      · rintro ⟨heval, h⟩
        exact ⟨heval, fun hf => absurd (hf.symm.trans hagg) Bool.false_ne_true,
          fun hf => absurd (hf.symm.trans hagg) Bool.false_ne_true, fun _ _ => h,
          fun _ hne => absurd hgrouped hne⟩
      · intro h
        exact ⟨h.evaluates, h.summary hagg hgrouped⟩
    · rw [execProject_selected_iff_groups hagg hgrouped hproject]
      constructor
      · rintro ⟨heval, h⟩
        exact ⟨heval, fun hf => absurd (hf.symm.trans hagg) Bool.false_ne_true,
          fun hf => absurd (hf.symm.trans hagg) Bool.false_ne_true, fun _ hnil => absurd hnil hgrouped,
          fun _ _ => h⟩
      · intro h
        exact ⟨h.evaluates, h.groups hagg hgrouped⟩

/-- The condition on a plan: where a filter stands above a projection at its root, the two commute on the
rows below them. -/
def PushesSafely (env : Env) (graphId : GraphId) (ω : Stream' Draw) (db : Db) (plan : LogicalPlan) : Prop :=
  ∀ input expressions aliases predicate, plan = .filter (.project input expressions aliases) predicate →
    ∀ rs, ((executeNode env graphId input).run ω db).result = .ok rs →
      Commutes env rs expressions aliases predicate

theorem optimize_eq_self {plan : LogicalPlan}
    (h : ∀ input expressions aliases predicate, plan ≠ .filter (.project input expressions aliases) predicate) :
    QueryOptimizer.new.optimize plan = plan := by
  show (filterPushdown.apply plan).getD plan = plan
  cases plan with
  | filter input predicate =>
    cases input with
    | project input expressions aliases => exact absurd rfl (h input expressions aliases predicate)
    | _ => rfl
  | _ => rfl

/-- **Filter pushdown**: where a plan succeeds, the optimized plan has the same answer exactly when the filter
and the projection it was moved below commute. -/
theorem optimize_preserves_iff {graphId : GraphId} {ω : Stream' Draw} {db : Db} {plan : LogicalPlan} {rs : ResultSet}
    (h : ((executeNode env graphId plan).run ω db).result = .ok rs) :
    ((executeNode env graphId (QueryOptimizer.new.optimize plan)).run ω db).result = .ok rs ↔
      PushesSafely env graphId ω db plan := by
  by_cases hfires : ∃ input expressions aliases predicate, plan = .filter (.project input expressions aliases) predicate
  · obtain ⟨input, expressions, aliases, predicate, rfl⟩ := hfires
    obtain ⟨projected, hprojected, hfilter⟩ := Process.result_bind_eq_ok.mp h
    obtain ⟨below, hbelow, hproject⟩ := Process.result_bind_eq_ok.mp hprojected
    have hrect := answersRows_executeNode env graphId input ω db below hbelow
    have hheaded : below.Headed := fun r hr => (hrect r hr).1
    have hheadedProjected : projected.Headed := fun r hr => (rectangular_execProject env hproject r hr).1
    obtain ⟨-, rfl⟩ := (execFilter_eq_ok_iff env hheadedProjected).mp hfilter
    have hsafe : PushesSafely env graphId ω db (.filter (.project input expressions aliases) predicate) ↔
        Commutes env below expressions aliases predicate := by
      constructor
      · intro hsafe
        exact hsafe _ _ _ _ rfl below hbelow
      · intro hcommutes input' expressions' aliases' predicate' heq rs hrs
        cases heq
        rw [hbelow] at hrs
        cases hrs
        exact hcommutes
    rw [hsafe, ← execProject_selected_iff hrect hproject]
    show (((executeNode env graphId input >>= fun rs => .ofExcept (execFilter env rs predicate)) >>= fun rs =>
      .ofExcept (execProject env rs expressions aliases)).run ω db).result = _ ↔ _
    simp only [Process.result_bind_eq_ok, Process.run_ofExcept, hbelow]
    constructor
    · rintro ⟨kept, ⟨below', hbelow', hkept⟩, hout⟩
      cases hbelow'
      obtain ⟨heval, rfl⟩ := (execFilter_eq_ok_iff env hheaded).mp hkept
      exact ⟨hout, heval⟩
    · rintro ⟨hout, heval⟩
      exact ⟨_, ⟨below, rfl, (execFilter_eq_ok_iff env hheaded).mpr ⟨heval, rfl⟩⟩, hout⟩
  · rw [optimize_eq_self fun input expressions aliases predicate heq =>
      hfires ⟨input, expressions, aliases, predicate, heq⟩]
    constructor
    · intro _ input expressions aliases predicate heq
      exact absurd ⟨input, expressions, aliases, predicate, heq⟩ hfires
    · exact fun _ => h

/-- One row with a value named `a`, projected to a column of the given name and filtered by that name. -/
def filteredColumn (name : String) : LogicalPlan :=
  .filter (.project (.project .empty [.literal (.integer 1)] [some "a"]) [.identifier "a"] [some name])
    (.binaryOp (.identifier name) .eq (.literal (.integer 1)))

/-- The name is that of the column below the projection. -/
theorem optimize_preserves_iff_column :
    PushesSafely (sampleEnv sampleBincode) sampleGraph sampleDraws Db.empty (filteredColumn "a") :=
  (@optimize_preserves_iff _ _ _ _ _ (.ofRows ["a"] [[.integer 1]]) (by decide)).mp (by decide)

/-- Below the projection there is no column of the new name. -/
theorem not_optimize_preserves_alias :
    ((executeNode (sampleEnv sampleBincode) sampleGraph (filteredColumn "b")).run sampleDraws Db.empty).result =
        .ok (.ofRows ["b"] [[.integer 1]]) ∧
      ((executeNode (sampleEnv sampleBincode) sampleGraph
        (QueryOptimizer.new.optimize (filteredColumn "b"))).run sampleDraws Db.empty).result =
        .error (.expressionError "unknown identifier: b") := by
  decide

end Synaptica.Exec
