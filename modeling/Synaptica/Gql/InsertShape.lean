import Synaptica.Gql.PlanShape

/-!
# What an `INSERT` asks for

A node pattern of an `INSERT` stands for a node that is there already when its name is bound by the
`MATCH` before it, or was given to an earlier node of the same `INSERT`; any other node pattern asks for
a new node. An edge pattern asks for an edge between the nodes next to it on its path. `Insertion` is
this reading of the statement; the planner takes much less from it.
-/

namespace Synaptica.Gql

/-! ## Places -/

/-- The node a pattern stands for: the one its name is bound to, or one of those that are created. -/
inductive Place where
  | bound (v : String)
  | created (k : Nat)
  deriving DecidableEq, Repr

/-- The name by which an element of a path is bound. -/
def boundName : Place ⊕ EdgePattern → Option String
  | .inl (.bound v) => some v
  | _ => none

def PatternElement.name : PatternElement → Option String
  | node n => n.var
  | edge e => e.var

/-- The names that a `MATCH` binds. -/
def MatchStatement.names (m : MatchStatement) : List String :=
  (m.paths.flatMap (·.elements)).filterMap PatternElement.name

/-- What an `INSERT` asks for: the names it takes as bound, the patterns to create a node for, and the
edge patterns, each between the places next to it. -/
structure Insertion where
  bound : List String
  nodes : List NodePattern
  edges : List (Option Place × EdgePattern × Option Place)

section Lay

variable (names : List String)

/-- The place of a node pattern, behind the patterns that nodes are created for. -/
def placeOf (made : List NodePattern) (n : NodePattern) : Place :=
  match n.var with
  | some v => if v ∈ names then .bound v else .created (made.findIdx fun m => m.var == some v)
  | none => .created made.length

def afterNode (made : List NodePattern) (n : NodePattern) : List NodePattern :=
  if placeOf names made n = .created made.length then made ++ [n] else made

/-- The elements of a path, with the place of each node pattern. -/
def layPath (made : List NodePattern) :
    List PatternElement → List NodePattern × List (Place ⊕ EdgePattern)
  | [] => (made, [])
  | .node n :: elements =>
    let laid := layPath (afterNode names made n) elements
    (laid.1, .inl (placeOf names made n) :: laid.2)
  | .edge e :: elements =>
    let laid := layPath made elements
    (laid.1, .inr e :: laid.2)

def layPaths (made : List NodePattern) :
    List PathPattern → List NodePattern × List (List (Place ⊕ EdgePattern))
  | [] => (made, [])
  | path :: paths =>
    let laid := layPath names made path.elements
    let rest := layPaths laid.1 paths
    (rest.1, laid.2 :: rest.2)

/-- The edge patterns of a path, behind an element at `u`. -/
def edgesFrom (u : Option Place) :
    List (Place ⊕ EdgePattern) → List (Option Place × EdgePattern × Option Place)
  | [] => []
  | .inl p :: elements => edgesFrom (some p) elements
  | .inr e :: elements => (u, e, elements.head?.bind Sum.getLeft?) :: edgesFrom none elements

def insertionOf (paths : List PathPattern) : Insertion :=
  let laid := layPaths names [] paths
  ⟨laid.2.flatten.filterMap boundName, laid.1, laid.2.flatMap (edgesFrom none)⟩

/-! ## What stays visible -/

variable {names}

/-- A pattern that asks for no node has a name that is bound. -/
theorem of_afterNode_eq_nil {made : List NodePattern} {n : NodePattern}
    (h : afterNode names made n = []) :
    made = [] ∧ ∃ v, n.var = some v ∧ placeOf names made n = .bound v := by
  rw [afterNode] at h
  split at h
  · simp at h
  · next hplace =>
    subst h
    refine ⟨rfl, ?_⟩
    rw [placeOf] at hplace ⊢
    cases hvar : n.var with
    | none => simp [hvar] at hplace
    | some v =>
      simp only [hvar] at hplace ⊢
      split at hplace
      · next hv => exact ⟨v, rfl, if_pos hv⟩
      · simp at hplace

/-- When no node is asked for, the names of the node patterns are those that are bound. -/
theorem of_layPath_eq_nil {made : List NodePattern} {elements : List PatternElement}
    (h : (layPath names made elements).1 = []) :
    made = [] ∧ (elements.filterMap PatternElement.asNode).filterMap (·.var) =
      (layPath names made elements).2.filterMap boundName := by
  induction elements generalizing made with
  | nil => exact ⟨h, rfl⟩
  | cons x elements ih =>
    cases x with
    | node n =>
      obtain ⟨hafter, hnames⟩ := ih h
      obtain ⟨hmade, v, hvar, hplace⟩ := of_afterNode_eq_nil hafter
      refine ⟨hmade, ?_⟩
      simp only [layPath, hplace, List.filterMap_cons, PatternElement.asNode, hvar, boundName, hnames]
    | edge e =>
      obtain ⟨hmade, hnames⟩ := ih h
      refine ⟨hmade, ?_⟩
      simp only [layPath, List.filterMap_cons, PatternElement.asNode, boundName, hnames]

theorem of_layPaths_eq_nil {made : List NodePattern} {paths : List PathPattern}
    (h : (layPaths names made paths).1 = []) :
    made = [] ∧ ((paths.flatMap (·.elements)).filterMap PatternElement.asNode).filterMap (·.var) =
      (layPaths names made paths).2.flatten.filterMap boundName := by
  induction paths generalizing made with
  | nil => exact ⟨h, rfl⟩
  | cons path paths ih =>
    obtain ⟨hpath, hrest⟩ := ih h
    obtain ⟨hmade, hnames⟩ := of_layPath_eq_nil hpath
    refine ⟨hmade, ?_⟩
    rw [layPaths, List.flatten_cons, List.filterMap_append, ← hrest, ← hnames, List.flatMap_cons,
      List.filterMap_append, List.filterMap_append]

theorem insertionOf_bound {paths : List PathPattern} (h : (insertionOf names paths).nodes = []) :
    ((paths.flatMap (·.elements)).filterMap PatternElement.asNode).filterMap (·.var) =
      (insertionOf names paths).bound :=
  (of_layPaths_eq_nil h).2

end Lay

/-! ## What the planner takes -/

namespace QueryPlanner

/-- With an edge pattern behind a `MATCH`, the first two names and the first edge; otherwise the first
node pattern. -/
theorem planInsert_eq_ok {paths : List PathPattern} {input : Option LogicalPlan} {plan : LogicalPlan}
    (h : planInsert paths input = .ok plan) :
    let elements := paths.flatMap (·.elements)
    (((elements.filterMap PatternElement.asEdge = [] ∨ input = none) ∧
      ∃ n, (elements.filterMap PatternElement.asNode).head? = some n ∧
        plan = .createNode n.labels n.properties) ∨
    ∃ base e es s t vs l ls, input = some base ∧ elements.filterMap PatternElement.asEdge = e :: es ∧
      (elements.filterMap PatternElement.asNode).filterMap (·.var) = s :: t :: vs ∧
      e.labels = l :: ls ∧ plan = .createEdgeFromMatch base s t l e.properties) := by
  intro elements
  simp only [planInsert] at h
  cases hedges : elements.filterMap PatternElement.asEdge with
  | nil =>
    simp only [show (paths.flatMap (·.elements)).filterMap PatternElement.asEdge = [] from hedges] at h
    split at h
    · cases h
    · next n ns hnodes =>
      cases h
      exact .inl ⟨.inl rfl, n, by rw [hnodes]; rfl, rfl⟩
  | cons e es =>
    simp only [show (paths.flatMap (·.elements)).filterMap PatternElement.asEdge = e :: es from hedges] at h
    cases input with
    | none =>
      dsimp only at h
      split at h
      · cases h
      · next n ns hnodes =>
        cases h
        exact .inl ⟨.inr rfl, n, by rw [hnodes]; rfl, rfl⟩
    | some base =>
      dsimp only at h
      split at h
      · cases h
      · cases h
      · next s t vs hnames =>
        split at h
        · cases h
        · next l ls hlabels =>
          cases h
          exact .inr ⟨base, e, es, s, t, vs, l, ls, rfl, rfl, hnames, hlabels, rfl⟩

end QueryPlanner

end Synaptica.Gql
