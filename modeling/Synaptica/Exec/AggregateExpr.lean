import Synaptica.Exec.Grouping
import Synaptica.Exec.Rows

/-!
# Aggregates inside expressions

An item such as `COUNT(*) + 1` means the sum in which the call stands for the count of the group.
`exec_project_with_aggregation` computes a call over the group only where it is the whole item. Every other
item is evaluated on the group's first record, where a call has the value of its argument there.
-/

namespace Synaptica.Exec

open Gql Storage

/-! ## Calls and their values -/

mutual

/-- The aggregate calls of an expression, less those in the argument of another. -/
def aggregateCalls : Expression → List Expression
  | .aggregate function distinct arg => [.aggregate function distinct arg]
  | .propertyAccess object _ => aggregateCalls object
  | .functionCall _ args => callsOfAll args
  | .binaryOp left _ right => aggregateCalls left ++ aggregateCalls right
  | .unaryOp _ operand => aggregateCalls operand
  | .caseWhen operand whenClauses elseClause =>
    callsOfOption operand ++ callsOfClauses whenClauses ++ callsOfOption elseClause
  | .list items => callsOfAll items
  | .map entries => callsOfEntries entries
  | .isNull inner | .isNotNull inner => aggregateCalls inner
  | .inList operand list => aggregateCalls operand ++ aggregateCalls list
  | .like operand pattern => aggregateCalls operand ++ aggregateCalls pattern
  | .typeCast expr _ => aggregateCalls expr
  | _ => []

def callsOfAll : List Expression → List Expression
  | [] => []
  | expr :: exprs => aggregateCalls expr ++ callsOfAll exprs

def callsOfEntries : List (String × Expression) → List Expression
  | [] => []
  | (_, expr) :: entries => aggregateCalls expr ++ callsOfEntries entries

def callsOfClauses : List (Expression × Expression) → List Expression
  | [] => []
  | (whenExpr, thenExpr) :: clauses =>
    aggregateCalls whenExpr ++ aggregateCalls thenExpr ++ callsOfClauses clauses

def callsOfOption : Option Expression → List Expression
  | some expr => aggregateCalls expr
  | none => []

end

mutual

theorem aggregateCalls_eq_nil_iff : (e : Expression) → (aggregateCalls e = [] ↔ hasAggregate e = false)
  | .aggregate .. => by simp [aggregateCalls, hasAggregate]
  | .propertyAccess object _ => aggregateCalls_eq_nil_iff object
  | .functionCall _ args => callsOfAll_eq_nil_iff args
  | .binaryOp left _ right => by
    rw [aggregateCalls, hasAggregate, List.append_eq_nil_iff, Bool.or_eq_false_iff,
      aggregateCalls_eq_nil_iff left, aggregateCalls_eq_nil_iff right]
  | .unaryOp _ operand => aggregateCalls_eq_nil_iff operand
  | .caseWhen operand whenClauses elseClause => by
    rw [aggregateCalls, hasAggregate, List.append_eq_nil_iff, List.append_eq_nil_iff, Bool.or_eq_false_iff,
      Bool.or_eq_false_iff, callsOfOption_eq_nil_iff operand, callsOfClauses_eq_nil_iff whenClauses,
      callsOfOption_eq_nil_iff elseClause]
  | .list items => callsOfAll_eq_nil_iff items
  | .map entries => callsOfEntries_eq_nil_iff entries
  | .isNull inner | .isNotNull inner => aggregateCalls_eq_nil_iff inner
  | .inList operand list => by
    rw [aggregateCalls, hasAggregate, List.append_eq_nil_iff, Bool.or_eq_false_iff,
      aggregateCalls_eq_nil_iff operand, aggregateCalls_eq_nil_iff list]
  | .like operand pattern => by
    rw [aggregateCalls, hasAggregate, List.append_eq_nil_iff, Bool.or_eq_false_iff,
      aggregateCalls_eq_nil_iff operand, aggregateCalls_eq_nil_iff pattern]
  | .typeCast expr _ => aggregateCalls_eq_nil_iff expr
  | .literal _ | .identifier _ | .existsQuery | .parameter _ | .subquery | .path => by
    simp [aggregateCalls, hasAggregate]

theorem callsOfAll_eq_nil_iff : (es : List Expression) → (callsOfAll es = [] ↔ anyHasAggregate es = false)
  | [] => by simp [callsOfAll, anyHasAggregate]
  | e :: es => by
    rw [callsOfAll, anyHasAggregate, List.append_eq_nil_iff, Bool.or_eq_false_iff,
      aggregateCalls_eq_nil_iff e, callsOfAll_eq_nil_iff es]

theorem callsOfEntries_eq_nil_iff : (es : List (String × Expression)) →
    (callsOfEntries es = [] ↔ entriesHaveAggregate es = false)
  | [] => by simp [callsOfEntries, entriesHaveAggregate]
  | (_, e) :: es => by
    rw [callsOfEntries, entriesHaveAggregate, List.append_eq_nil_iff, Bool.or_eq_false_iff,
      aggregateCalls_eq_nil_iff e, callsOfEntries_eq_nil_iff es]

theorem callsOfClauses_eq_nil_iff : (cs : List (Expression × Expression)) →
    (callsOfClauses cs = [] ↔ clausesHaveAggregate cs = false)
  | [] => by simp [callsOfClauses, clausesHaveAggregate]
  | (w, t) :: cs => by
    rw [callsOfClauses, clausesHaveAggregate, List.append_eq_nil_iff, List.append_eq_nil_iff,
      Bool.or_eq_false_iff, Bool.or_eq_false_iff, aggregateCalls_eq_nil_iff w, aggregateCalls_eq_nil_iff t,
      callsOfClauses_eq_nil_iff cs]

theorem callsOfOption_eq_nil_iff : (o : Option Expression) →
    (callsOfOption o = [] ↔ optionHasAggregate o = false)
  | some e => aggregateCalls_eq_nil_iff e
  | none => by simp [callsOfOption, optionHasAggregate]

end

section evaluateWith

variable (env : Env) (value : Expression → Except ExecError Value) (context : Record)

mutual

/-- The value of an expression whose aggregate calls have the given values. -/
def evaluateWith : Expression → Except ExecError Value
  | .literal lit => evalLiteral lit
  | .identifier name =>
    match context.get name with
    | some v => .ok v
    | none => .error (.expressionError ("unknown identifier: " ++ name))
  | .propertyAccess object property =>
    match propertyColumn context object property with
    | some v => .ok v
    | none => do
      let obj ← evaluateWith object
      pure (propertyOf obj property)
  | .binaryOp left op right => do
    let lv ← evaluateWith left
    match op with
    | .and =>
      if lv = .bool false then pure (.bool false)
      else do
        let rv ← evaluateWith right
        pure (evalAnd lv rv)
    | .or =>
      if lv = .bool true then pure (.bool true)
      else do
        let rv ← evaluateWith right
        pure (evalOr lv rv)
    | op => do
      let rv ← evaluateWith right
      evalBinaryOp lv op rv
  | .unaryOp op operand => do
    let v ← evaluateWith operand
    evalUnaryOp op v
  | .isNull inner => do
    let v ← evaluateWith inner
    pure (.bool v.isNull)
  | .isNotNull inner => do
    let v ← evaluateWith inner
    pure (.bool !v.isNull)
  | .inList operand list => do
    let val ← evaluateWith operand
    let listVal ← evaluateWith list
    evalIn val listVal
  | .functionCall name args => do
    let values ← evaluateAllWith args
    evalFunction env name values
  | .aggregate function distinct arg => value (.aggregate function distinct arg)
  | .list exprs => do
    let values ← evaluateAllWith exprs
    pure (.list values)
  | .map entries => do
    let m ← evaluateEntriesWith ∅ entries
    pure (.map m.toList)
  | .caseWhen operand whenClauses elseClause =>
    match operand with
    | some op => do
      let opVal ← evaluateWith op
      match ← evaluateWhenWith (fun w => opVal.partialEq w) whenClauses with
      | some v => pure v
      | none => evaluateElseWith elseClause
    | none => do
      match ← evaluateWhenWith (fun w => w == .bool true) whenClauses with
      | some v => pure v
      | none => evaluateElseWith elseClause
  | .existsQuery => .error (.notImplemented ("expression: " ++ discriminant 7))
  | .parameter _ => .error (.notImplemented ("expression: " ++ discriminant 11))
  | .subquery => .error (.notImplemented ("expression: " ++ discriminant 12))
  | .like _ _ => .error (.notImplemented ("expression: " ++ discriminant 16))
  | .typeCast _ _ => .error (.notImplemented ("expression: " ++ discriminant 17))
  | .path => .error (.notImplemented ("expression: " ++ discriminant 18))

def evaluateAllWith : List Expression → Except ExecError (List Value)
  | [] => .ok []
  | expr :: exprs => do
    let v ← evaluateWith expr
    let vs ← evaluateAllWith exprs
    pure (v :: vs)

def evaluateEntriesWith (m : Properties) : List (String × Expression) → Except ExecError Properties
  | [] => .ok m
  | (key, expr) :: entries => do
    let v ← evaluateWith expr
    evaluateEntriesWith (m.insert key v) entries

def evaluateWhenWith (applies : Value → Bool) :
    List (Expression × Expression) → Except ExecError (Option Value)
  | [] => .ok none
  | (whenExpr, thenExpr) :: clauses => do
    let w ← evaluateWith whenExpr
    if applies w then do
      let v ← evaluateWith thenExpr
      pure (some v)
    else evaluateWhenWith applies clauses

def evaluateElseWith : Option Expression → Except ExecError Value
  | some expr => evaluateWith expr
  | none => .ok .null

end

end evaluateWith

section extended

variable {env : Env} {value : Expression → Except ExecError Value} (r : Record)

mutual

/-- An expression that evaluates on one row has the same value when its calls have the values they have
there. -/
theorem extends_evaluateWith : (e : Expression) →
    (∀ c ∈ aggregateCalls e, (evaluate env r c).Extends (value c)) →
      (evaluate env r e).Extends (evaluateWith env value r e)
  | .literal lit, _ => by
    rw [evaluate, evaluateWith]
    exact .refl _
  | .identifier name, _ => by
    rw [evaluate, evaluateWith]
    exact .refl _
  | .propertyAccess object property, h => by
    rw [evaluate, evaluateWith]
    cases propertyColumn r object property with
    | some v => exact .refl _
    | none => exact (extends_evaluateWith object h).bind fun obj => .refl _
  | .binaryOp left op right, h => by
    obtain ⟨hl, hr⟩ := List.forall_mem_append.mp h
    have hright := extends_evaluateWith right hr
    rw [evaluate, evaluateWith]
    refine (extends_evaluateWith left hl).bind fun lv => ?_
    cases op with
    | and =>
      dsimp only
      by_cases hknown : lv = .bool false
      · rw [if_pos hknown, if_pos hknown]
        exact .refl _
      · rw [if_neg hknown, if_neg hknown]
        exact hright.bind fun rv => .refl _
    | or =>
      dsimp only
      by_cases hknown : lv = .bool true
      · rw [if_pos hknown, if_pos hknown]
        exact .refl _
      · rw [if_neg hknown, if_neg hknown]
        exact hright.bind fun rv => .refl _
    | _ => exact hright.bind fun rv => .refl _
  | .unaryOp op operand, h => by
    rw [evaluate, evaluateWith]
    exact (extends_evaluateWith operand h).bind fun v => .refl _
  | .isNull inner, h => by
    rw [evaluate, evaluateWith]
    exact (extends_evaluateWith inner h).bind fun v => .refl _
  | .isNotNull inner, h => by
    rw [evaluate, evaluateWith]
    exact (extends_evaluateWith inner h).bind fun v => .refl _
  | .inList operand list, h => by
    obtain ⟨ho, hl⟩ := List.forall_mem_append.mp h
    rw [evaluate, evaluateWith]
    exact (extends_evaluateWith operand ho).bind fun v =>
      (extends_evaluateWith list hl).bind fun l => .refl _
  | .functionCall name args, h => by
    rw [evaluate, evaluateWith]
    exact (extends_evaluateAllWith args h).bind fun vs => .refl _
  | .aggregate function distinct arg, h => h _ List.mem_cons_self
  | .list exprs, h => by
    rw [evaluate, evaluateWith]
    exact (extends_evaluateAllWith exprs h).bind fun vs => .refl _
  | .map entries, h => by
    rw [evaluate, evaluateWith]
    exact (extends_evaluateEntriesWith entries h ∅).bind fun m => .refl _
  | .caseWhen (some op) whens elseClause, h => by
    obtain ⟨h', he⟩ := List.forall_mem_append.mp h
    obtain ⟨ho, hw⟩ := List.forall_mem_append.mp h'
    have helse := extends_evaluateElseWith elseClause he
    rw [evaluate, evaluateWith]
    refine (extends_evaluateWith op ho).bind fun v => (extends_evaluateWhenWith whens hw _).bind fun w => ?_
    cases w with
    | some y => exact .refl _
    | none => exact helse
  | .caseWhen none whens elseClause, h => by
    obtain ⟨h', he⟩ := List.forall_mem_append.mp h
    obtain ⟨-, hw⟩ := List.forall_mem_append.mp h'
    have helse := extends_evaluateElseWith elseClause he
    rw [evaluate, evaluateWith]
    refine (extends_evaluateWhenWith whens hw _).bind fun w => ?_
    cases w with
    | some y => exact .refl _
    | none => exact helse
  | .existsQuery, _ | .parameter _, _ | .subquery, _ | .like _ _, _ | .typeCast _ _, _ | .path, _ => by
    rw [evaluate, evaluateWith]
    exact .refl _

theorem extends_evaluateAllWith : (es : List Expression) →
    (∀ c ∈ callsOfAll es, (evaluate env r c).Extends (value c)) →
      (evaluateAll env r es).Extends (evaluateAllWith env value r es)
  | [], _ => by
    rw [evaluateAll, evaluateAllWith]
    exact .refl _
  | e :: es, h => by
    obtain ⟨he, hes⟩ := List.forall_mem_append.mp h
    rw [evaluateAll, evaluateAllWith]
    exact (extends_evaluateWith e he).bind fun v => (extends_evaluateAllWith es hes).bind fun vs => .refl _

theorem extends_evaluateEntriesWith : (es : List (String × Expression)) →
    (∀ c ∈ callsOfEntries es, (evaluate env r c).Extends (value c)) → (m : Properties) →
      (evaluateEntries env r m es).Extends (evaluateEntriesWith env value r m es)
  | [], _, m => by
    rw [evaluateEntries, evaluateEntriesWith]
    exact .refl _
  | (k, e) :: es, h, m => by
    obtain ⟨he, hes⟩ := List.forall_mem_append.mp h
    rw [evaluateEntries, evaluateEntriesWith]
    exact (extends_evaluateWith e he).bind fun v => extends_evaluateEntriesWith es hes (m.insert k v)

theorem extends_evaluateWhenWith : (cs : List (Expression × Expression)) →
    (∀ c ∈ callsOfClauses cs, (evaluate env r c).Extends (value c)) → (applies : Value → Bool) →
      (evaluateWhen env r applies cs).Extends (evaluateWhenWith env value r applies cs)
  | [], _, applies => by
    rw [evaluateWhen, evaluateWhenWith]
    exact .refl _
  | (w, t) :: cs, h, applies => by
    obtain ⟨h', hcs⟩ := List.forall_mem_append.mp h
    obtain ⟨hw, ht⟩ := List.forall_mem_append.mp h'
    have hthen := extends_evaluateWith t ht
    have hrest := extends_evaluateWhenWith cs hcs applies
    rw [evaluateWhen, evaluateWhenWith]
    refine (extends_evaluateWith w hw).bind fun v => ?_
    by_cases happlies : applies v
    · rw [if_pos happlies, if_pos happlies]
      exact hthen.bind fun y => .refl _
    · rw [if_neg happlies, if_neg happlies]
      exact hrest

theorem extends_evaluateElseWith : (o : Option Expression) →
    (∀ c ∈ callsOfOption o, (evaluate env r c).Extends (value c)) →
      (evaluateElse env r o).Extends (evaluateElseWith env value r o)
  | some e, h => by
    rw [evaluateElse, evaluateElseWith]
    exact extends_evaluateWith e h
  | none, _ => by
    rw [evaluateElse, evaluateElseWith]
    exact .refl _

end

end extended

/-! ## Items over a group -/

variable (env : Env)

/-- The groups of the rows. Without grouping items all rows are one group, also when there are none. -/
def groupsOf (items : List Expression) (records : List Record) : Except ExecError (List (List Record)) := do
  let groups ← groupRecords env (groupingItems items) ∅ records
  pure (if groups.isEmpty && (groupingItems items).isEmpty then [[]] else groups.toList.map (·.2))

/-- The first row of a group; that of no rows at all has no columns. -/
def firstRow (group : List Record) : Record := group.headD ⟨[], []⟩

/-- What an item means over a group: its calls are computed over the group, and what surrounds them is
evaluated on the first row. -/
def itemValue (group : List Record) (e : Expression) : Except ExecError Value :=
  evaluateWith env (groupValue env (firstRow group) group) (firstRow group) e

/-- There is one row for each group, and every item of it has its value over the group. -/
def Composes (items : List Expression) (records : List Record) (out : ResultSet) : Prop :=
  ∃ groups, groupsOf env items records = .ok groups ∧
    List.Forall₂ (fun group row => items.mapM (itemValue env group) = .ok row.values) groups out.records

/-- A call that already has on the first row of a group the value it has over the group. -/
def SettledOn (group : List Record) (call : Expression) : Prop :=
  (evaluate env (firstRow group) call).Extends (groupValue env (firstRow group) group call)

/-- Every item with aggregates is a call itself, or it is one that is detected and whose calls are settled on
every group, of which none is empty. -/
def Settled (items : List Expression) (records : List Record) : Prop :=
  ∀ e ∈ items, hasAggregate e = true → (∃ f d arg, e = .aggregate f d arg) ∨
    containsAggregate e = true ∧ ∀ groups, groupsOf env items records = .ok groups →
      ∀ group ∈ groups, group ≠ [] ∧ ∀ call ∈ aggregateCalls e, SettledOn env group call

variable {env}

theorem Settled.detected {items : List Expression} {records : List Record} (h : Settled env items records) :
    ∀ e ∈ items, containsAggregate e = hasAggregate e := by
  intro e he
  cases hagg : hasAggregate e with
  | false =>
    by_contra hc
    have hagg' := hasAggregate_of_containsAggregate e (Bool.eq_true_of_not_eq_false hc)
    rw [hagg] at hagg'
    cases hagg'
  | true =>
    rcases h e he hagg with ⟨f, d, arg, rfl⟩ | ⟨hc, -⟩
    · rfl
    · exact hc

/-- What the code computes for an item whose calls are settled is its value over the group. -/
theorem extends_itemValue {group : List Record} {e : Expression}
    (h : (∃ f d arg, e = .aggregate f d arg) ∨ ∀ call ∈ aggregateCalls e, SettledOn env group call) :
    (groupValue env (firstRow group) group e).Extends (itemValue env group e) := by
  have hbare : ∀ f d arg, (groupValue env (firstRow group) group (.aggregate f d arg)).Extends
      (itemValue env group (.aggregate f d arg)) := by
    intro f d arg
    rw [itemValue, evaluateWith]
    exact .refl _
  rcases h with ⟨f, d, arg, rfl⟩ | h
  · exact hbare f d arg
  · have hrow := extends_evaluateWith (firstRow group) e h
    cases e with
    | aggregate f d arg => exact hbare f d arg
    | _ => exact hrow

/-- The default of a call on no rows is its value over them. -/
theorem itemValue_nil (f : AggregateFunction) (d : Bool) (arg : Option Expression) :
    itemValue env [] (.aggregate f d arg) = .ok (emptyAggregate (.aggregate f d arg)) := by
  rw [itemValue, evaluateWith]
  cases f <;> cases arg <;> cases d <;> rfl

/-- **The grouped projection**, when every aggregate is detected: the defaults over no rows, the code's own
values over the others. -/
theorem execProject_eq_groupsOf {items : List Expression} (input : ResultSet) (aliases : List (Option String))
    (hseen : ∀ e ∈ items, containsAggregate e = hasAggregate e) (hagg : ∃ e ∈ items, hasAggregate e = true) :
    execProject env input items aliases = (do
      let groups ← groupsOf env items input.records
      let rows ← groups.mapM fun group =>
        if group = [] then .ok (items.map emptyAggregate) else items.mapM (groupValue env (firstRow group) group)
      pure (.ofRows (projectColumns items aliases) rows)) := by
  have hsame : items.filter (fun e => !containsAggregate e) = groupingItems items :=
    List.filter_congr fun e he => by rw [hseen e he]
  obtain ⟨e, he, hagg⟩ := hagg
  have hany : anyContainsAggregate items = true := anyContainsAggregate_of_mem he (hseen e he ▸ hagg)
  rw [execProject, if_pos hany, execProjectWithAggregation, hsame, groupsOf]
  cases hgroups : groupRecords env (groupingItems items) ∅ input.records with
  | error err => rfl
  | ok groups =>
    rw [Except.ok_bind, Except.ok_bind]
    by_cases hempty : (groups.isEmpty && (groupingItems items).isEmpty) = true
    · rw [if_pos hempty, if_pos hempty]
      rfl
    · rw [if_neg hempty, if_neg hempty]
      show _ = (List.mapM _ (groups.toList.map (·.2)) >>= _)
      rw [List.mapM_map]
      refine congrArg (· >>= _) (List.mapM_congr_left fun group hmem => ?_)
      have hne := ne_nil_of_groupRecords env hgroups (by simp) group.1 group.2 (OrderedMap.mem_toList _ |>.mp hmem)
      obtain ⟨key, records⟩ := group
      cases records with
      | nil => exact absurd rfl hne
      | cons first rest => rfl

/-- Only where nothing is grouped by is there a group without rows. -/
theorem groupingItems_of_nil_mem {items : List Expression} {records : List Record}
    {groups : List (List Record)} (h : groupsOf env items records = .ok groups) (hmem : [] ∈ groups) :
    groupingItems items = [] := by
  obtain ⟨collected, hcollected, h⟩ := Except.bind_eq_ok.mp h
  cases h
  by_cases hempty : (collected.isEmpty && (groupingItems items).isEmpty) = true
  · exact List.isEmpty_iff.mp (Bool.and_eq_true_iff.mp hempty).2
  · rw [if_neg hempty] at hmem
    obtain ⟨group, hgroup, hnil⟩ := List.mem_map.mp hmem
    have hne := ne_nil_of_groupRecords env hcollected (by simp) group.1 group.2
      ((OrderedMap.mem_toList _).mp hgroup)
    exact absurd hnil hne

/-- Where the items are settled, the projection has the values that the items mean. -/
theorem composes_of_settled {items : List Expression} {input out : ResultSet}
    {aliases : List (Option String)} (hagg : ∃ e ∈ items, hasAggregate e = true)
    (hsettled : Settled env items input.records) (h : execProject env input items aliases = .ok out) :
    Composes env items input.records out := by
  rw [execProject_eq_groupsOf input aliases hsettled.detected hagg] at h
  obtain ⟨groups, hgroups, h⟩ := Except.bind_eq_ok.mp h
  obtain ⟨rows, hrows, h⟩ := Except.bind_eq_ok.mp h
  cases h
  refine ⟨groups, hgroups, ?_⟩
  show List.Forall₂ _ groups (rows.map fun values => (⟨projectColumns items aliases, values⟩ : Record))
  rw [List.forall₂_map_right_iff]
  have hall := List.mapM_eq_ok_iff_forall₂.mp hrows
  refine List.forall₂_iff_zip.mpr ⟨hall.length_eq, fun {group row} hmem => ?_⟩
  have hgroup := (List.of_mem_zip hmem).1
  have hrow := (List.forall₂_iff_zip.mp hall).2 hmem
  by_cases hnil : group = []
  · subst hnil
    rw [if_pos rfl] at hrow
    cases hrow
    rw [List.mapM_eq_ok_iff_forall₂, List.forall₂_map_right_iff]
    refine List.forall₂_same.mpr fun e he => ?_
    -- nothing is grouped by, so the item has a call; and its one group is empty, so it is that call
    have hagg' : hasAggregate e = true := by
      by_contra hfree
      have hmem : e ∈ groupingItems items := List.mem_filter.mpr ⟨he, by simpa using hfree⟩
      rw [groupingItems_of_nil_mem hgroups hgroup] at hmem
      cases hmem
    rcases hsettled e he hagg' with ⟨f, d, arg, rfl⟩ | ⟨-, hgroups'⟩
    · exact itemValue_nil f d arg
    · exact absurd rfl (hgroups' groups hgroups [] hgroup).1
  · rw [if_neg hnil] at hrow
    have hvals := List.mapM_eq_ok_iff_forall₂.mp hrow
    refine List.mapM_eq_ok_iff_forall₂.mpr (List.forall₂_iff_zip.mpr ⟨hvals.length_eq, fun {e v} he => ?_⟩)
    have hmem := (List.of_mem_zip he).1
    apply extends_itemValue ?_ v ((List.forall₂_iff_zip.mp hvals).2 he)
    cases hagg' : hasAggregate e with
    | false =>
      have hnone := (aggregateCalls_eq_nil_iff e).mpr hagg'
      exact .inr fun call hcall => absurd (hnone ▸ hcall) List.not_mem_nil
    | true => exact (hsettled e hmem hagg').imp_right fun hs => (hs.2 groups hgroups group hgroup).2

/-! ## Without grouping -/

/-- With nothing to group by, the rows are one group. -/
theorem groupsOf_ungrouped {items : List Expression} {records : List Record}
    (hnone : groupingItems items = []) (hrecords : records ≠ []) :
    groupsOf env items records = .ok [records] := by
  have hcollect : groupRecords env [] ∅ records = .ok (OrderedMap.collect (fun _ => "") ∅ records) :=
    @groupRecords_of_forall env [] ∅ records (fun _ => []) fun _ _ => rfl
  have hlist : (OrderedMap.collect (fun _ : Record => "") ∅ records).toList = [("", records)] :=
    OrderedMap.toList_collect_of_forall hrecords fun _ _ => rfl
  have hnonempty : (OrderedMap.collect (fun _ : Record => "") ∅ records).isEmpty = false := by
    rw [← Std.ExtTreeMap.isEmpty_toList, hlist]
    rfl
  rw [groupsOf, hnone, hcollect, Except.ok_bind, hnonempty, hlist]
  rfl

/-- The call `id` of the conversion functions answers its argument. -/
theorem evalFunction_id (hid : env.rt.toLowercase "id" = "id") (v : Value) :
    evalFunction env "id" [v] = .ok v := by
  rw [evalFunction, hid]
  rfl

/-- **Aggregates inside expressions** have their values over the group when they are settled; and over rows
that nothing is grouped by, a call must be, or some expression around it is computed wrongly. -/
theorem aggregates_compose (hid : env.rt.toLowercase "id" = "id") :
    (∀ (items : List Expression) (input out : ResultSet) (aliases : List (Option String)),
      (∃ e ∈ items, hasAggregate e = true) → Settled env items input.records →
        execProject env input items aliases = .ok out → Composes env items input.records out) ∧
    ∀ (input : ResultSet) f d arg, input.records ≠ [] →
      ((∀ (e : Expression) (out : ResultSet) (aliases : List (Option String)),
        containsAggregate e = true → (∀ call ∈ aggregateCalls e, call = .aggregate f d arg) →
          execProject env input [e] aliases = .ok out → Composes env [e] input.records out) ↔
        SettledOn env input.records (.aggregate f d arg)) := by
  constructor
  · intro items input out aliases hagg hsettled h
    exact composes_of_settled hagg hsettled h
  · intro input f d arg hrecords
    have hgroups : ∀ e, containsAggregate e = true → groupsOf env [e] input.records = .ok [input.records] := by
      intro e he
      apply groupsOf_ungrouped ?_ hrecords
      simp [groupingItems, hasAggregate_of_containsAggregate e he]
    constructor
    · intro hall v hv
      -- the call as an argument of `id`
      let e : Expression := .functionCall "id" [.aggregate f d arg]
      have hvalue : evaluate env (firstRow input.records) e = .ok v := by
        rw [evaluate, evaluateAll, hv]
        exact evalFunction_id hid v
      have hproject : execProject env input [e] [] = .ok (.ofRows (projectColumns [e] []) [[v]]) := by
        rw [execProject_eq_groupsOf input [] (by simp [e, containsAggregate, anyContainsAggregate, hasAggregate,
          anyHasAggregate]) ⟨e, List.mem_singleton_self e, rfl⟩, hgroups e rfl, Except.ok_bind]
        have hrow : [e].mapM (groupValue env (firstRow input.records) input.records) = .ok [v] := by
          rw [List.mapM_cons, show groupValue env (firstRow input.records) input.records e = _ from hvalue]
          rfl
        rw [List.mapM_cons, if_neg hrecords, hrow]
        rfl
      obtain ⟨groups, hgroups', hrows⟩ := hall e _ [] rfl (fun call hcall => List.mem_singleton.mp hcall) hproject
      rw [hgroups e rfl] at hgroups'
      cases hgroups'
      obtain ⟨hrow, -⟩ := List.forall₂_cons.mp hrows
      obtain ⟨w, ws, hw, hws, hwv⟩ := List.mapM_cons_eq_ok.mp hrow
      obtain ⟨rfl, rfl⟩ := List.cons.inj hwv
      rw [itemValue, evaluateWith, evaluateAllWith, evaluateAllWith, evaluateWith] at hw
      obtain ⟨vs, hvs, hw⟩ := Except.bind_eq_ok.mp hw
      obtain ⟨x, hx, hvs⟩ := Except.bind_eq_ok.mp hvs
      cases hvs
      rw [evalFunction_id hid] at hw
      cases hw
      exact hx
    · intro hsettled e out aliases he hcalls h
      refine composes_of_settled ⟨e, List.mem_singleton_self e, hasAggregate_of_containsAggregate e he⟩ ?_ h
      intro e' he' _
      cases List.mem_singleton.mp he'
      refine .inr ⟨he, fun groups hgroups' group hmem => ?_⟩
      rw [hgroups e he] at hgroups'
      cases hgroups'
      cases List.mem_singleton.mp hmem
      exact ⟨hrecords, fun call hcall => hcalls call hcall ▸ hsettled⟩

/-- `MAX(x) + 1` over the rows 2 and 1. -/
def maxRows : ResultSet := .ofRows ["x"] [[.integer 2], [.integer 1]]

def maxPlusOne : Expression := .binaryOp (.aggregate .max false (some (.identifier "x"))) .add (.literal (.integer 1))

theorem aggregates_compose_max :
    Composes (sampleEnv sampleBincode) [maxPlusOne] maxRows.records (.ofRows ["col_0"] [[.integer 3]]) := by
  refine (aggregates_compose rfl).1 [maxPlusOne] maxRows _ [none]
    ⟨maxPlusOne, List.mem_singleton_self _, rfl⟩ ?_ (by decide)
  intro e he _
  cases List.mem_singleton.mp he
  refine .inr ⟨rfl, fun groups hgroups group hmem => ?_⟩
  rw [groupsOf_ungrouped rfl (by decide)] at hgroups
  cases hgroups
  cases List.mem_singleton.mp hmem
  refine ⟨by decide, fun call hcall v hv => ?_⟩
  cases List.mem_singleton.mp hcall
  cases hv
  decide

/-- `COUNT(*) + 1` over two rows is 2. -/
theorem aggregates_not_compose :
    execProject (sampleEnv sampleBincode) maxRows
        [.binaryOp (.aggregate .count false none) .add (.literal (.integer 1))] [none] =
      .ok (.ofRows ["col_0"] [[.integer 2]]) ∧
    ¬ Composes (sampleEnv sampleBincode) [.binaryOp (.aggregate .count false none) .add (.literal (.integer 1))]
      maxRows.records (.ofRows ["col_0"] [[.integer 2]]) := by
  refine ⟨by decide, ?_⟩
  intro ⟨groups, hgroups, hrows⟩
  rw [groupsOf_ungrouped rfl (by decide)] at hgroups
  cases hgroups
  obtain ⟨hrow, -⟩ := List.forall₂_cons.mp hrows
  revert hrow
  decide

end Synaptica.Exec
