import Synaptica.Storage.Engine

/-!
# Stores up to the choice of identifiers

Nodes and edges get random identifiers, so two executions of the same statements can at best leave
stores that are equal up to a bijective renaming of them. `Isomorphic` is that relation on what is
stored: the graphs, their nodes and their edges.
-/

namespace Synaptica.Storage

/-- A bijective renaming of node and edge identifiers. -/
structure Renaming where
  node : NodeId ≃ NodeId
  edge : EdgeId ≃ EdgeId

namespace Renaming

variable (r : Renaming)

/-- The same node under its new name. -/
def onNode (n : Node) : Node := { n with id := r.node n.id }

/-- The same edge under its new name, between the new names of its ends. -/
def onEdge (e : Edge) : Edge :=
  { e with id := r.edge e.id, source := r.node e.source, target := r.node e.target }

/-- Every identifier keeps its name. -/
def refl : Renaming := ⟨Equiv.refl _, Equiv.refl _⟩

@[simp] theorem refl_onNode (n : Node) : refl.onNode n = n := rfl

@[simp] theorem refl_onEdge (e : Edge) : refl.onEdge e = e := rfl

end Renaming

/-- The node is stored in the graph under its identifier. -/
def HasNode (bin : Bincode) (db : Db) (g : GraphId) (n : Node) : Prop :=
  StorageEngine.getNode bin db g n.id = .ok n

/-- The edge is stored in the graph under its identifier. -/
def HasEdge (bin : Bincode) (db : Db) (g : GraphId) (e : Edge) : Prop :=
  StorageEngine.getEdge bin db g e.id = .ok e

instance (bin : Bincode) (db : Db) (g : GraphId) (n : Node) : Decidable (HasNode bin db g n) :=
  inferInstanceAs (Decidable (_ = _))

instance (bin : Bincode) (db : Db) (g : GraphId) (e : Edge) : Decidable (HasEdge bin db g e) :=
  inferInstanceAs (Decidable (_ = _))

/-- The renaming takes the graphs of one store to those of the other. -/
structure Isomorphism (bin : Bincode) (r : Renaming) (db db' : Db) : Prop where
  graphs : StorageEngine.listGraphs bin db' = StorageEngine.listGraphs bin db
  nodes : ∀ g n, HasNode bin db' g (r.onNode n) ↔ HasNode bin db g n
  edges : ∀ g e, HasEdge bin db' g (r.onEdge e) ↔ HasEdge bin db g e

/-- Equal up to a renaming of identifiers. -/
def Isomorphic (bin : Bincode) (db db' : Db) : Prop := ∃ r, Isomorphism bin r db db'

theorem Isomorphic.refl (bin : Bincode) (db : Db) : Isomorphic bin db db :=
  ⟨Renaming.refl, rfl, fun _ _ => Iff.rfl, fun _ _ => Iff.rfl⟩

end Synaptica.Storage
