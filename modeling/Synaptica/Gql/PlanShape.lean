import Synaptica.Gql.Planner
import Synaptica.Lib.Traverse

/-!
# What becomes of the plan so far

The planner carries one plan through the statements of a program. A statement can *drop* that plan
(`startsFresh`), put read operators on top of it (`wraps`), or use it in some other way: several
times, or below a write. Which of the three it does is visible in the statement, and decides whether
two programs can be joined into one.
-/

namespace Synaptica.Gql

namespace LogicalPlan

/-- No operator that is executed writes. The last three are not implemented, so they fail before
anything below them is executed. -/
def readOnly : LogicalPlan → Bool
  | scan .. | empty | indexScan .. | callProcedure .. | listGraphs => true
  | filter input _ | project input _ _ | expand input .. | sort input _ | limit input _ _
  | distinct input => readOnly input
  | join left right => readOnly left && readOnly right
  | createNode .. | deleteNode .. | setProperty .. | createEdgeFromMatch .. | createIndex ..
  | dropIndex .. | createGraph .. | dropGraph .. => false
  | aggregate .. | createEdge .. | union .. => true

/-- `Over p q`: `q` is `p` below read operators only, and `p` is executed before anything else in
`q`. -/
inductive Over (p : LogicalPlan) : LogicalPlan → Prop
  | refl : Over p p
  | filter {input predicate} : Over p input → Over p (filter input predicate)
  | project {input expressions aliases} : Over p input → Over p (project input expressions aliases)
  | expand {input edgeLabel direction targetLabels edgeVar targetVar} :
    Over p input → Over p (expand input edgeLabel direction targetLabels edgeVar targetVar)
  | sort {input orderBy} : Over p input → Over p (sort input orderBy)
  | limit {input count offset} : Over p input → Over p (limit input count offset)
  | distinct {input} : Over p input → Over p (distinct input)
  | join {left right} : Over p left → right.readOnly → Over p (join left right)

theorem Over.trans {p q r : LogicalPlan} (hpq : Over p q) (hqr : Over q r) : Over p r := by
  induction hqr with
  | refl => exact hpq
  | filter _ ih => exact ih.filter
  | project _ ih => exact ih.project
  | expand _ ih => exact ih.expand
  | sort _ ih => exact ih.sort
  | limit _ ih => exact ih.limit
  | distinct _ ih => exact ih.distinct
  | join _ hright ih => exact ih.join hright

theorem Over.readOnly_eq {p q : LogicalPlan} (h : Over p q) : q.readOnly = p.readOnly := by
  induction h with
  | join _ hright ih => rw [readOnly, ih, hright, Bool.and_true]
  | refl => rfl
  | _ _ ih => rw [readOnly, ih]

end LogicalPlan

namespace QueryPlanner

open LogicalPlan

/-! ## Paths -/

theorem over_applyInlinePropertyFilters (plan : LogicalPlan) (properties : List (String × Expression))
    (var : Option String) : Over plan (applyInlinePropertyFilters plan properties var) := by
  unfold applyInlinePropertyFilters
  induction properties generalizing plan with
  | nil => exact .refl
  | cons p properties ih => exact Over.trans (.filter .refl) (ih _)

theorem over_expandPath (plan : LogicalPlan) (edges : List EdgePattern) (nodes : List NodePattern) :
    Over plan (expandPath plan edges nodes) := by
  induction edges generalizing plan nodes with
  | nil => exact .refl
  | cons edge edges ih =>
    rw [expandPath]
    refine Over.trans ?_ (ih _ _)
    cases nodes.head? with
    | none => exact Over.trans (.expand .refl) (over_applyInlinePropertyFilters _ _ _)
    | some node =>
      refine Over.trans ?_ (over_applyInlinePropertyFilters _ _ _)
      exact Over.trans (.expand .refl) (over_applyInlinePropertyFilters _ _ _)

/-- The variable by which a path starts, and hence continues the plan so far. -/
def startVar (path : PathPattern) : Option String :=
  let nodes := path.elements.filterMap PatternElement.asNode
  if (path.elements.filterMap PatternElement.asEdge).isEmpty then (nodes.filterMap (·.var)).head?
  else nodes.head?.bind (·.var)

/-- A path with edges needs a node to start from; nothing else can go wrong in planning it. -/
def Startable (path : PathPattern) : Prop :=
  path.elements.filterMap PatternElement.asEdge = [] ∨
    path.elements.filterMap PatternElement.asNode ≠ []

/-- A path is planned over a scan or over the plan so far. -/
theorem planPath_spec (input : Option LogicalPlan) (graph : Option String) (path : PathPattern) :
    (Startable path ∧ ∃ labels plan, planPath input graph path = .ok plan ∧
      Over (scanOrInput input graph labels (startVar path)) plan) ∨
    (¬ Startable path ∧ ∃ e, planPath input graph path = .error e) := by
  unfold planPath startVar Startable
  cases hedges : path.elements.filterMap PatternElement.asEdge with
  | nil => exact .inl ⟨.inl rfl, _, _, rfl, over_applyInlinePropertyFilters _ _ _⟩
  | cons edge edges =>
    cases path.elements.filterMap PatternElement.asNode with
    | nil => exact .inr ⟨by simp, _, rfl⟩
    | cons source targets =>
      exact .inl ⟨.inr (by simp), _, _, rfl,
        (over_applyInlinePropertyFilters _ _ _).trans (over_expandPath _ _ _)⟩

theorem planPath_eq_ok {input : Option LogicalPlan} {graph : Option String} {path : PathPattern}
    {plan : LogicalPlan} (h : planPath input graph path = .ok plan) :
    ∃ labels, Over (scanOrInput input graph labels (startVar path)) plan := by
  rcases planPath_spec input graph path with ⟨-, labels, plan', hplan, hover⟩ | ⟨-, e, he⟩
  · rw [h] at hplan
    cases hplan
    exact ⟨labels, hover⟩
  · rw [h] at he
    cases he

/-- The plan so far writes nothing; there may be none. -/
def inputReads (input : Option LogicalPlan) : Bool := input.all readOnly

theorem readOnly_planPath {input : Option LogicalPlan} {graph : Option String} {path : PathPattern}
    {plan : LogicalPlan} (h : planPath input graph path = .ok plan) :
    plan.readOnly = ((startVar path).isNone || inputReads input) := by
  obtain ⟨labels, hover⟩ := planPath_eq_ok h
  rw [hover.readOnly_eq]
  cases input <;> cases startVar path <;> simp [scanOrInput, readOnly, inputReads]

/-! ## MATCH -/

theorem readOnly_foldl_join (first : LogicalPlan) (rest : List LogicalPlan) :
    (rest.foldl .join first).readOnly = (first.readOnly && rest.all readOnly) := by
  induction rest generalizing first with
  | nil => simp
  | cons plan rest ih => rw [List.foldl_cons, ih, readOnly, List.all_cons, Bool.and_assoc]

/-- A match is the join of its paths, perhaps filtered. -/
theorem planMatch_eq_ok {m : MatchStatement} {input : Option LogicalPlan} {plan : LogicalPlan}
    (h : planMatch m input = .ok plan) :
    ∃ first rest, m.paths.mapM (planPath input m.graph) = .ok (first :: rest) ∧
      Over (rest.foldl .join first) plan := by
  unfold planMatch at h
  cases hscans : m.paths.mapM (planPath input m.graph) with
  | error e => simp [hscans, bind, Except.bind] at h
  | ok scans =>
    cases scans with
    | nil => simp [hscans, bind, Except.bind] at h
    | cons first rest =>
      refine ⟨first, rest, rfl, ?_⟩
      simp only [hscans, bind, Except.bind, pure, Except.pure, Except.ok.injEq] at h
      cases hw : m.whereClause with
      | none =>
        rw [hw] at h
        exact h ▸ .refl
      | some condition =>
        rw [hw] at h
        exact h ▸ .filter .refl

theorem mapM_planPath_forall₂ {input : Option LogicalPlan} {graph : Option String}
    {paths : List PathPattern} {scans : List LogicalPlan}
    (h : paths.mapM (planPath input graph) = .ok scans) :
    List.Forall₂ (fun path plan => planPath input graph path = .ok plan) paths scans := by
  induction paths generalizing scans with
  | nil =>
    cases h
    exact .nil
  | cons path paths ih =>
    rw [List.mapM_cons] at h
    cases hp : planPath input graph path with
    | error e => simp [hp, bind, Except.bind] at h
    | ok plan =>
      cases hr : paths.mapM (planPath input graph) with
      | error e => simp [hp, hr, bind, Except.bind] at h
      | ok rest =>
        simp only [hp, hr, bind, Except.bind, pure, Except.pure, Except.ok.injEq] at h
        subst h
        exact .cons hp (ih hr)

theorem all_readOnly_of_forall₂ {input : Option LogicalPlan} {graph : Option String}
    {paths : List PathPattern} {scans : List LogicalPlan}
    (h : List.Forall₂ (fun path plan => planPath input graph path = .ok plan) paths scans) :
    scans.all readOnly = paths.all fun path => (startVar path).isNone || inputReads input := by
  induction h with
  | nil => rfl
  | cons hp _ ih => rw [List.all_cons, List.all_cons, ih, readOnly_planPath hp]

theorem readOnly_planMatch {m : MatchStatement} {input : Option LogicalPlan} {plan : LogicalPlan}
    (h : planMatch m input = .ok plan) :
    plan.readOnly = (m.paths.all (fun path => (startVar path).isNone) || inputReads input) := by
  obtain ⟨first, rest, hscans, hover⟩ := planMatch_eq_ok h
  have hall := all_readOnly_of_forall₂ (mapM_planPath_forall₂ hscans)
  rw [hover.readOnly_eq, readOnly_foldl_join, ← List.all_cons, hall]
  cases inputReads input <;> simp

/-! ## Statements -/

theorem over_applyLimitOffset {p plan : LogicalPlan} (h : Over p plan)
    (lo : Option LimitOffsetClause) : Over p (applyLimitOffset plan lo) := by
  cases lo with
  | none => exact h
  | some lo => exact h.limit

theorem over_planReturn (r : ReturnStatement) (input : Option LogicalPlan) :
    Over (input.getD .empty) (planReturn r input) := by
  unfold planReturn
  apply over_applyLimitOffset
  cases r.distinct <;> cases r.orderBy
  · exact .project .refl
  · exact .project (.sort .refl)
  · exact .distinct (.project .refl)
  · exact .distinct (.project (.sort .refl))

theorem over_planWith (w : WithStatement) (input : Option LogicalPlan) :
    Over (input.getD .empty) (planWith w input) := by
  have hprojected : Over (input.getD .empty)
      (if w.distinct then LogicalPlan.distinct
          (.project (input.getD .empty) (w.items.map (·.expression)) (w.items.map (·.aliasName)))
        else .project (input.getD .empty) (w.items.map (·.expression)) (w.items.map (·.aliasName))) := by
    split
    · exact .distinct (.project .refl)
    · exact .project .refl
  unfold planWith
  apply over_applyLimitOffset
  cases w.whereClause <;> cases w.orderBy
  · exact hprojected
  · exact hprojected.sort
  · exact hprojected.filter
  · exact hprojected.filter.sort

theorem planFrom_cons_eq_ok {stmt : GqlStatement} {stmts : List GqlStatement}
    {input current : Option LogicalPlan} :
    planFrom input (stmt :: stmts) = .ok current ↔
      ∃ plan, planStatement stmt input = .ok plan ∧ planFrom (some plan) stmts = .ok current := by
  rw [planFrom]
  cases planStatement stmt input with
  | error e => simp [bind, Except.bind]
  | ok plan => simp [bind, Except.bind]

theorem plan_eq_ok {P : GqlProgram} {plan : LogicalPlan} :
    QueryPlanner.plan P = .ok plan ↔
      ∃ current, planFrom none P.statements = .ok current ∧ plan = current.getD .empty := by
  unfold QueryPlanner.plan
  cases planFrom none P.statements with
  | error e => simp [bind, Except.bind]
  | ok current => simp [bind, Except.bind, pure, Except.pure, eq_comm]

end QueryPlanner

end Synaptica.Gql
