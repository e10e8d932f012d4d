import Synaptica.Exec.Reading

/-!
# Path patterns and walks

A path pattern that alternates node and edge patterns is matched by walks: sequences of stored nodes
and edges that have the labels and follow the directions, position by position. The plan of such a
pattern is a scan with one expand step for each edge. An expand step starts from the hidden column
`__node_id` and advances it only when the node it reaches is named, so the rows are the walks when
every node strictly inside the pattern is named and no name is taken by another column.
-/

namespace Synaptica.Exec

open Gql Storage

/-! ## Patterns -/

/-- A path pattern that alternates: a node pattern, then each edge pattern with the node pattern
behind it. -/
structure Chain where
  start : NodePattern
  hops : List (EdgePattern × NodePattern)

namespace Chain

def path (c : Chain) : PathPattern :=
  ⟨.node c.start :: c.hops.flatMap fun p => [.edge p.1, .node p.2]⟩

/-- The names that are written, from left to right. -/
def vars (c : Chain) : List String :=
  c.start.var.toList ++ c.hops.flatMap fun p => p.1.var.toList ++ p.2.var.toList

/-- No property maps, at most one label for each element, and distinct names. -/
structure Plain (c : Chain) : Prop where
  start : c.start.properties = [] ∧ c.start.labels.length ≤ 1
  edges : ∀ p ∈ c.hops, p.1.properties = [] ∧ p.1.labels.length ≤ 1 ∧ ∀ l ∈ p.1.labels, isIdentifier l
  nodes : ∀ p ∈ c.hops, p.2.properties = [] ∧ p.2.labels.length ≤ 1
  names : ∀ v ∈ c.vars, isIdentifier v
  distinct : c.vars.Nodup

end Chain

/-! ## Walks -/

/-- A start node, and edges each with the node it leads to. -/
structure Walk where
  start : Node
  hops : List (Edge × Node)

/-- The node at which a walk from `u` ends. -/
def lastOf (u : NodeId) (hops : List (Edge × Node)) : NodeId :=
  (hops.getLast?.map fun h => h.2.id).getD u

namespace Walk

def last (w : Walk) : NodeId := lastOf w.start.id w.hops

def extend (w : Walk) (h : Edge × Node) : Walk := ⟨w.start, w.hops ++ [h]⟩

end Walk

section Match

variable (bin : Bincode) (db : Db) (g : GraphId)

/-- A stored edge and the node behind it that match one step of the pattern from `u` on. -/
structure Follows (u : NodeId) (p : EdgePattern × NodePattern) (h : Edge × Node) : Prop where
  edge : HasEdge bin db g h.1
  label : ∀ l ∈ p.1.labels, h.1.label = ⟨l⟩
  leads : Leads p.1.direction u h.1 h.2.id
  node : HasNode bin db g h.2
  labels : ∀ l ∈ p.2.labels, hasLabel h.2 l

end Match

/-- Every named variable is bound to the node or edge at its position. -/
def Binds (c : Chain) (w : Walk) (r : Record) : Prop :=
  (∀ v ∈ c.start.var, r.get v = some (nodeValue w.start)) ∧
    List.Forall₂ (fun p h => (∀ v ∈ p.1.var, r.get v = some (edgeValue h.1)) ∧
      ∀ v ∈ p.2.var, r.get v = some (nodeValue h.2)) c.hops w.hops

variable (env : Env) (graphId : GraphId)

section Snoc

variable {bin : Bincode} {db : Db} {g : GraphId}

/-- What a row binds depends on the names of the pattern only. -/
theorem Binds.congr {c : Chain} {w : Walk} {r r' : Record} (h : Binds c w r)
    (hget : ∀ v ∈ c.vars, r'.get v = r.get v) : Binds c w r' := by
  constructor
  · intro v hv
    rw [hget v (List.mem_append_left _ (Option.mem_toList.mpr hv))]
    exact h.1 v hv
  · have hvars : ∀ p ∈ c.hops, ∀ v, v ∈ p.1.var ∨ v ∈ p.2.var → r'.get v = r.get v := by
      intro p hp v hv
      apply hget v (List.mem_append_right _ (List.mem_flatMap.mpr ⟨p, hp, ?_⟩))
      rw [List.mem_append, Option.mem_toList, Option.mem_toList]
      exact hv
    refine ((List.forall₂_and_left _ _).mpr ⟨hvars, h.2⟩).imp fun p hop hp => ?_
    obtain ⟨hsame, hedge, hnode⟩ := hp
    exact ⟨fun v hv => (hsame v (.inl hv)).trans (hedge v hv),
      fun v hv => (hsame v (.inr hv)).trans (hnode v hv)⟩

end Snoc

/-! ## Rows of a pattern -/

section Rows

variable {bin : Bincode} {db : Db} {g : GraphId}

end Rows

/-! ## The scan -/

section Scan

variable {env graphId} {db : Db}

end Scan

/-! ## One expand step -/

section Expand

variable {env graphId} {db : Db}

/-- The label an expand step asks for. -/
def labelFilter (p : EdgePattern) : Option Label :=
  let edgeLabel := p.labels.head?.getD ""
  if edgeLabel.isEmpty then none else some ⟨edgeLabel⟩

end Expand

/-! ## The plan of a pattern -/

section Plan

variable {env graphId} {db : Db}

/-- A scan, then one expand step for each edge. -/
def chainPlan (graph : Option String) (c : Chain) : LogicalPlan :=
  c.hops.foldl (fun plan p => .expand plan (p.1.labels.head?.getD "") p.1.direction p.2.labels p.1.var
    p.2.var) (.scan c.start.labels graph c.start.var)

theorem readOnly_chainPlan (graph : Option String) (c : Chain) : (chainPlan graph c).readOnly := by
  unfold chainPlan
  induction c.hops using List.reverseRecOn with
  | nil => rfl
  | append_singleton hops p ih =>
    rw [List.foldl_append]
    exact ih

end Plan

/-! ## Two friends -/

section Friends

def friend : Node := { person with id := ⟨sampleId 3⟩ }

/-- The person knows the friend. -/
def befriends : Edge := { knows with target := friend.id }

def friendsBincode : Bincode := .bare [person, friend] [befriends]

def friendsOps : List StoreOp := [.putNode person, .putNode friend, .putEdge befriends]

def friends : Db := storeRun friendsBincode friendsOps

theorem friends_consistent : Consistent friendsBincode friends := by
  refine storeRun_consistent (Codec.ofTable_roundTrips (by decide))
    (Codec.ofTable_roundTrips (by decide)) ?_
  have hperson : ∀ n : Node, n.labels = person.labels → LabelsFit n := by
    intro n hn l hl
    rw [hn, ← Std.ExtTreeSet.mem_toList] at hl
    revert l
    decide
  simp only [friendsOps, List.mem_cons, List.not_mem_nil, or_false]
  rintro op (rfl | rfl | rfl)
  · exact hperson person rfl
  · exact hperson friend rfl
  · show befriends.label.Fits
    decide

theorem eq_of_hasEdge_friends {e : Edge} (h : HasEdge friendsBincode friends sampleGraph e) :
    e = befriends := by
  obtain ⟨es, hes, hmem⟩ := exists_scanEdges (consistent_iff.mp friends_consistent) sampleGraph
  have hscan : StorageEngine.scanEdges friendsBincode friends sampleGraph = .ok [befriends] := by
    decide
  rw [hscan] at hes
  cases hes
  exact List.mem_singleton.mp ((hmem e).mpr h)

/-- `(v)`. -/
def bareNode (var : Option String) : NodePattern := ⟨var, [], []⟩

/-- `-[:KNOWS]->`. -/
def knowsEdge : EdgePattern := ⟨none, .outgoing, ["KNOWS"], []⟩

end Friends

end Synaptica.Exec
