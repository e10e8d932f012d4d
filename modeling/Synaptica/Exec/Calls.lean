import Synaptica.Exec.Upkeep

/-!
# What every storage call keeps

The write operators reach the store through ten calls. What the calls on nodes, edges and index entries
keep is kept by every operator that writes a graph; what the calls on definitions and graphs keep as
well is kept by every run of programs.
-/

namespace Synaptica.Exec

open Gql Storage Process

section Results

variable {α : Type} {wrap : StorageError → ExecError} {ω : Stream' Draw} {db : Db} {a : α}

theorem result_call_eq_ok {m : StorageM α} :
    ((call m wrap).run ω db).result = .ok a ↔ (m db).result = .ok a := by
  show (m db).result.mapError wrap = .ok a ↔ _
  cases (m db).result <;> simp [Except.mapError]

theorem result_query_eq_ok {f : Db → StorageResult α} :
    ((query f wrap).run ω db).result = .ok a ↔ f db = .ok a := by
  show (f db).mapError wrap = .ok a ↔ _
  cases f db <;> simp [Except.mapError]

theorem keeps_call {I : Db → Prop} {m : StorageM α} (wrap : StorageError → ExecError)
    (h : ∀ db, I db → I (Journaled.exec m db)) : (call m wrap).Keeps I := fun _ db hdb => h db hdb

theorem keeps_callIgnored {I : Db → Prop} {m : StorageM α}
    (h : ∀ db, I db → I (Journaled.exec m db)) : (callIgnored m).Keeps I := fun _ db hdb => h db hdb

end Results

/-- The calls on nodes, edges and index entries keep the property. -/
structure GraphCallsKeep (rt : Runtime) (I : Db → Prop) : Prop where
  putNode : ∀ node db, I db → I (Journaled.exec (StorageEngine.putNode rt.bin node) db)
  putEdge : ∀ edge db, I db → I (Journaled.exec (StorageEngine.putEdge rt.bin edge) db)
  deleteNode : ∀ g i db, I db → I (Journaled.exec (StorageEngine.deleteNode rt.bin g i) db)
  deleteEdge : ∀ g i db, I db → I (Journaled.exec (StorageEngine.deleteEdge rt.bin g i) db)
  indexNode : ∀ index node db, I db → I (Journaled.exec (IndexManager.indexNode rt index node) db)
  unindexNode : ∀ index node db, I db → I (Journaled.exec (IndexManager.unindexNode rt index node) db)

/-- The calls on index definitions and graphs keep the property. -/
structure CatalogCallsKeep (rt : Runtime) (I : Db → Prop) : Prop where
  createIndex : ∀ index db, I db → I (Journaled.exec (IndexManager.createIndex rt index) db)
  dropIndex : ∀ g name db, I db → I (Journaled.exec (IndexManager.dropIndex rt g name) db)
  putGraphMeta : ∀ m db, I db → I (Journaled.exec (StorageEngine.putGraphMeta rt.bin m) db)
  deleteGraph : ∀ g db, I db → I (Journaled.exec (StorageEngine.deleteGraph g) db)

/-! ## Operators -/

section Operators

variable {env : Env} {graphId : GraphId} {I : Db → Prop}

theorem keeps_maintainIndexes {write : IndexDefinition → Node → StorageM Unit}
    (hwrite : ∀ index node db, I db → I (Journaled.exec (write index node) db)) (node : Node) :
    (maintainIndexes env graphId write node).Keeps I := by
  have hmaintain : ∀ defs, (maintain write node defs).Keeps I := by
    intro defs
    induction defs with
    | nil => exact keeps_pure _ _
    | cons index defs ih =>
      rw [maintain]
      split
      · exact keeps_bind (keeps_callIgnored (hwrite index node)) fun _ => ih
      · exact ih
  apply keeps_bind ((reads_tryQuery _).keeps _)
  intro found
  cases found with
  | ok defs => exact hmaintain defs
  | error e => exact keeps_pure _ _

theorem keeps_createEdgeRows
    (hput : ∀ edge db, I db → I (Journaled.exec (StorageEngine.putEdge env.rt.bin edge) db))
    (sourceVar targetVar label : String) (properties : List (String × Expression))
    (records : List Record) :
    (createEdgeRows env graphId sourceVar targetVar label properties records).Keeps I := by
  have hresolve : ∀ (what var : String) (s : Option String), (resolveEndpoint what var s).Keeps I := by
    intro what var s
    cases s with
    | none => exact keeps_fail _ _
    | some s => exact keeps_pure _ _
  have hrow : ∀ record,
      (createEdgeRow env graphId sourceVar targetVar label properties record).Keeps I := by
    intro record
    refine keeps_bind (hresolve _ _ _) fun _ => keeps_bind (hresolve _ _ _) fun _ =>
      keeps_bind ((reads_parseId env _ _).keeps _) fun _ =>
      keeps_bind ((reads_parseId env _ _).keeps _) fun _ => keeps_bind (keeps_drawn _) fun _ =>
      keeps_bind (keeps_ofExcept _ _) fun _ => ?_
    exact keeps_bind (keeps_call _ (hput _)) fun _ =>
      keeps_bind (keeps_report _ _) fun _ => keeps_pure _ _
  induction records with
  | nil => exact keeps_pure _ _
  | cons record records ih =>
    exact keeps_bind (hrow record) fun _ => keeps_bind ih fun _ => keeps_pure _ _

theorem keeps_deleteEdges
    (hdelete : ∀ i db, I db → I (Journaled.exec (StorageEngine.deleteEdge env.rt.bin graphId i) db))
    (seen : List String) (values : List Value) : (deleteEdges env graphId seen values).Keeps I := by
  induction values generalizing seen with
  | nil => exact keeps_pure _ _
  | cons value values ih =>
    cases value with
    | edge id label sourceId targetId properties =>
      rw [Exec.deleteEdges]
      split
      · exact ih seen
      · exact keeps_bind ((reads_parseId env _ _).keeps _) fun _ =>
          keeps_bind (keeps_call _ (hdelete _)) fun _ =>
          keeps_bind (keeps_report _ _) fun _ => keeps_bind (ih _) fun _ => keeps_pure _ _
    | _ => exact ih seen

theorem keeps_deleteNodes (hone : ∀ id, (deleteOneNode env graphId id).Keeps I) (seen : List String)
    (values : List Value) : (deleteNodes env graphId seen values).Keeps I := by
  induction values generalizing seen with
  | nil => exact keeps_pure _ _
  | cons value values ih =>
    cases value with
    | node id labels properties =>
      rw [Exec.deleteNodes]
      split
      · exact ih seen
      · exact keeps_bind (hone id) fun _ => keeps_bind (ih _) fun _ => keeps_pure _ _
    | _ => exact ih seen

theorem keeps_setEdgeProperty
    (hput : ∀ edge db, I db → I (Journaled.exec (StorageEngine.putEdge env.rt.bin edge) db))
    (id property : String) (val : Value) : (setEdgeProperty env graphId id property val).Keeps I := by
  apply keeps_bind ((reads_parseId env _ _).keeps _)
  intro uuid
  apply keeps_bind ((reads_query _ _).keeps _)
  intro edge
  exact keeps_bind (keeps_call _ (hput _)) fun _ => keeps_report _ _

/-- What assigning to one node and to one edge keeps, a `SET` keeps. -/
theorem keeps_setRecords (hnode : ∀ id property val, (setNodeProperty env graphId id property val).Keeps I)
    (hedge : ∀ id property val, (setEdgeProperty env graphId id property val).Keeps I)
    (target : Option String) (property : String) (value : Expression) (records : List Record) :
    (setRecords env graphId target property value records).Keeps I := by
  have hentities : ∀ val values, (setEntities env graphId property val values).Keeps I := by
    intro val values
    induction values with
    | nil => exact keeps_pure _ _
    | cons value values ih =>
      cases value with
      | node id labels properties =>
        exact keeps_bind (hnode id property val) fun _ => keeps_bind ih fun _ => keeps_pure _ _
      | edge id label sourceId targetId properties =>
        exact keeps_bind (hedge id property val) fun _ => keeps_bind ih fun _ => keeps_pure _ _
      | _ => exact ih
  induction records with
  | nil => exact keeps_pure _ _
  | cons record records ih =>
    exact keeps_bind (keeps_ofExcept _ _) fun val =>
      keeps_bind (hentities val _) fun _ => keeps_bind ih fun _ => keeps_pure _ _

namespace GraphCallsKeep

variable (h : GraphCallsKeep env.rt I)
include h

theorem indexNodeOnWrite (node : Node) : (indexNodeOnWrite env graphId node).Keeps I :=
  keeps_maintainIndexes h.indexNode node

theorem unindexNodeOnDelete (node : Node) : (unindexNodeOnDelete env graphId node).Keeps I :=
  keeps_maintainIndexes h.unindexNode node

theorem createNode (labels : List String) (properties : List (String × Expression)) :
    (execCreateNode env graphId labels properties).Keeps I := by
  apply keeps_bind (keeps_drawn _)
  intro draw
  apply keeps_bind (keeps_ofExcept _ _)
  intro props
  apply keeps_bind (keeps_call _ (h.putNode _))
  intro _
  apply keeps_bind (keeps_report _ _)
  intro _
  exact keeps_bind (h.indexNodeOnWrite _) fun _ => keeps_pure _ _

theorem createEdgeFromMatch (rs : ResultSet) (sourceVar targetVar label : String)
    (properties : List (String × Expression)) :
    (execCreateEdgeFromMatch env graphId rs sourceVar targetVar label properties).Keeps I :=
  keeps_bind (keeps_createEdgeRows h.putEdge _ _ _ _ _) fun _ => keeps_pure _ _

theorem deleteOneNode (id : String) : (deleteOneNode env graphId id).Keeps I := by
  have hcount : ∀ u, (countIncidentEdges env graphId u).Keeps I := fun u =>
    keeps_bind ((reads_query _ _).keeps _) fun _ =>
      keeps_bind ((reads_query _ _).keeps _) fun _ => keeps_pure _ _
  have hrest : ∀ u, (countIncidentEdges env graphId u >>= fun incident =>
      call (StorageEngine.deleteNode env.rt.bin graphId u) asInternal >>= fun _ =>
        (.report ⟨0, 1, 0, incident, 0⟩ : ExecM Unit)).Keeps I := fun u =>
    keeps_bind (hcount u) fun _ =>
      keeps_bind (keeps_call _ (h.deleteNode _ _)) fun _ => keeps_report _ _
  apply keeps_bind ((reads_parseId env _ _).keeps _)
  intro uuid
  apply keeps_bind ((reads_tryQuery _).keeps _)
  intro found
  cases found with
  | ok node => exact keeps_bind (h.unindexNodeOnDelete node) fun _ => hrest _
  | error e => exact hrest _

theorem delete (rs : ResultSet) (targets : List String) :
    (execDeleteNodes env graphId rs targets).Keeps I :=
  keeps_bind (keeps_deleteEdges (h.deleteEdge graphId) _ _) fun _ =>
    keeps_bind (keeps_deleteNodes h.deleteOneNode _ _) fun _ => keeps_pure _ _

theorem setNodeProperty (id property : String) (val : Value) :
    (setNodeProperty env graphId id property val).Keeps I := by
  apply keeps_bind ((reads_parseId env _ _).keeps _)
  intro uuid
  apply keeps_bind ((reads_query _ _).keeps _)
  intro node
  apply keeps_bind (h.unindexNodeOnDelete node)
  intro _
  apply keeps_bind (keeps_call _ (h.putNode _))
  intro _
  exact keeps_bind (h.indexNodeOnWrite _) fun _ => keeps_report _ _

theorem set (rs : ResultSet) (target : Option String) (property : String) (value : Expression) :
    (execSetProperty env graphId rs target property value).Keeps I :=
  keeps_bind (keeps_setRecords h.setNodeProperty (keeps_setEdgeProperty h.putEdge) _ _ _ _) fun _ =>
    keeps_pure _ _

end GraphCallsKeep

/-! ## Index definitions and graphs -/

/-- Creating an index stores its definition and then indexes nodes. -/
theorem keeps_execCreateIndex
    (hcreate : ∀ index db, I db → I (Journaled.exec (IndexManager.createIndex env.rt index) db))
    (hindex : ∀ index node db, I db → I (Journaled.exec (IndexManager.indexNode env.rt index node) db))
    (name : String) (unique : Bool) (entityType : String) (label : Option String)
    (propertyNames : List String) :
    (execCreateIndex env graphId name unique entityType label propertyNames).Keeps I := by
  have hbackfill : ∀ (index : IndexDefinition) (nodes : List Node), (backfill env index nodes).Keeps I := by
    intro index nodes
    induction nodes with
    | nil => exact keeps_pure _ _
    | cons node nodes ih =>
      rw [backfill]
      split
      · exact keeps_bind (keeps_callIgnored (hindex index node)) fun _ => ih
      · exact ih
  unfold execCreateIndex
  extract_lets index finish
  apply keeps_bind (keeps_call _ (hcreate index))
  intro _
  split
  · apply keeps_bind ((reads_query _ _).keeps _)
    intro nodes
    exact keeps_bind (hbackfill index nodes) fun _ => keeps_pure _ _
  · exact keeps_pure _ _

theorem keeps_execDropIndex
    (hdrop : ∀ g name db, I db → I (Journaled.exec (IndexManager.dropIndex env.rt g name) db))
    (name : String) : (execDropIndex env graphId name).Keeps I :=
  keeps_bind (keeps_call _ (hdrop _ _)) fun _ => keeps_pure _ _

theorem keeps_execCreateGraph
    (hput : ∀ m db, I db → I (Journaled.exec (StorageEngine.putGraphMeta env.rt.bin m) db))
    (name : String) (ifNotExists : Bool) : (execCreateGraph env name ifNotExists).Keeps I := by
  apply keeps_bind ((reads_tryQuery _).keeps _)
  intro found
  cases found with
  | ok _ =>
    dsimp only
    split
    · exact keeps_pure _ _
    · exact keeps_fail _ _
  | error _ => exact keeps_bind (keeps_call _ (hput _)) fun _ => keeps_pure _ _

theorem keeps_execDropGraph
    (hdelete : ∀ g db, I db → I (Journaled.exec (StorageEngine.deleteGraph g) db))
    (name : String) (ifExists : Bool) : (execDropGraph env name ifExists).Keeps I := by
  apply keeps_bind ((reads_tryQuery _).keeps _)
  intro found
  cases found with
  | error _ =>
    dsimp only
    split
    · exact keeps_pure _ _
    · exact keeps_fail _ _
  | ok _ => exact keeps_bind (keeps_call _ (hdelete _)) fun _ => keeps_pure _ _

/-- What every call keeps, every write operator keeps. -/
theorem keeps_writeOf (h : GraphCallsKeep env.rt I) (hcatalog : CatalogCallsKeep env.rt I)
    (plan : LogicalPlan) (rs : ResultSet) : (writeOf env graphId plan rs).Keeps I := by
  cases plan with
  | createNode labels properties => exact h.createNode labels properties
  | createEdgeFromMatch input sourceVar targetVar label properties =>
    exact h.createEdgeFromMatch rs sourceVar targetVar label properties
  | deleteNode input targets detach => exact h.delete rs targets
  | setProperty input target property value => exact h.set rs target property value
  | createIndex name unique entityType label propertyNames =>
    exact keeps_execCreateIndex hcatalog.createIndex h.indexNode name unique entityType label propertyNames
  | dropIndex name => exact keeps_execDropIndex hcatalog.dropIndex name
  | createGraph name ifNotExists => exact keeps_execCreateGraph hcatalog.putGraphMeta name ifNotExists
  | dropGraph name ifExists => exact keeps_execDropGraph hcatalog.deleteGraph name ifExists
  | _ => exact keeps_pure _ _

end Operators

/-! ## Runs -/

theorem eachWrite_true (env : Env) (graphId : GraphId) (plan : LogicalPlan) (ω : Stream' Draw) (db : Db) :
    EachWrite env graphId (fun _ _ _ _ => True) plan ω db := by
  induction plan generalizing ω db with
  | filter _ _ ih | project _ _ _ ih | expand _ _ _ _ _ _ ih | sort _ _ ih | limit _ _ _ ih
  | distinct _ ih => exact ih ω db
  | join left right ihl ihr => exact ⟨ihl ω db, fun _ _ => ihr _ _⟩
  | createEdgeFromMatch _ _ _ _ _ ih | deleteNode _ _ _ ih | setProperty _ _ _ _ ih =>
    exact ⟨ih ω db, fun _ _ => trivial⟩
  | _ => exact trivial

/-- **What every call keeps, every run of programs keeps.** -/
theorem run_keeps {env : Env} {I : Db → Prop} (h : GraphCallsKeep env.rt I)
    (hcatalog : CatalogCallsKeep env.rt I) {db : Db} (hdb : I db) (requests : List Request) :
    I (Run.exec (Request.exec env) db requests) := by
  refine Run.invariant I (fun db request hdb _ => ?_) hdb (Run.each_true db requests)
  exact Request.invariant (p := fun _ _ _ _ _ => True)
    (fun _ plan rs ω db _ hdb => keeps_writeOf h hcatalog plan rs ω db hdb)
    (fun _ _ => eachWrite_true _ _ _ _ _) hdb

end Synaptica.Exec
