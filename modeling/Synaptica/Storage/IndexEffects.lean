import Synaptica.Storage.Effects
import Synaptica.Storage.Index

/-!
# What the index calls do

The calls on property indexes touch one column family, so the nodes and edges are as before. There
they put or delete one key, except for dropping an index, which deletes its definition and its entries.
-/

open Journaled

namespace Synaptica.Storage

/-- The batch stays inside one column family. -/
def OnlyIn (c : ColumnFamily) (batch : WriteBatch) : Prop := ∀ op ∈ batch, op.cf = c

theorem exec_of_onlyIn {α : Type} {m : StorageM α} {c c' : ColumnFamily} (h : Emits (OnlyIn c) m)
    (hc : c' ≠ c) (db : Db) : exec m db c' = db c' :=
  exec_of_emits (fun db batch hbatch op hop heq => hc (heq.symm.trans (h db batch hbatch op hop))) db

variable (rt : Runtime) {db : Db} {k : Bytes}

/-! ## Definitions -/

section Definitions

theorem createIndex_cases (index : IndexDefinition) (db : Db) :
    (∃ e, (IndexManager.createIndex rt index db).result = .error e ∧
      exec (IndexManager.createIndex rt index) db = db) ∨
    ∃ value, rt.bin.indexDefinition.serialize index = .ok value ∧
      (IndexManager.createIndex rt index db).result = .ok () ∧
      exec (IndexManager.createIndex rt index) db =
        db.apply (.put .propIndex (IndexManager.metaKey index.graphId index.name) value) := by
  cases hvalue : serializeValue rt.bin.indexDefinition index with
  | error e =>
    have hread : ((read fun _ => serializeValue rt.bin.indexDefinition index : StorageM Bytes) db).result =
        .error e := hvalue
    exact .inl ⟨e, result_bind_error hread, exec_bind_error hread⟩
  | ok value =>
    have hread : ((read fun _ => serializeValue rt.bin.indexDefinition index : StorageM Bytes) db).result =
        .ok value := hvalue
    exact .inr ⟨value, serializeValue_eq_ok.mp hvalue, result_bind_ok hread, exec_bind_ok hread⟩

theorem createIndex_onlyIn (index : IndexDefinition) :
    Emits (OnlyIn .propIndex) (IndexManager.createIndex rt index) := by
  unfold IndexManager.createIndex
  refine emits_bind (emits_read _) fun value => ?_
  refine emits_write ?_
  simp [OnlyIn, WriteOp.cf]

/-- The entries of whatever index has this name. -/
def namedPrefix (g : GraphId) (name : String) : Bytes := g.asBytes ++ 0x01 :: hashIndexName rt name

theorem namedPrefix_eq (index : IndexDefinition) :
    namedPrefix rt index.graphId index.name = IndexManager.entryPrefix rt index := rfl

theorem result_dropIndex (g : GraphId) (name : String) (db : Db) :
    (IndexManager.dropIndex rt g name db).result = .ok () := rfl

theorem getElem?_dropIndex (g : GraphId) (name : String) :
    (exec (IndexManager.dropIndex rt g name) db .propIndex)[k]? =
      if k = IndexManager.metaKey g name ∨ namedPrefix rt g name <+: k then none
      else (db .propIndex)[k]? := by
  set kept := db.apply (.delete .propIndex (IndexManager.metaKey g name)) with hkept
  have hexec : exec (IndexManager.dropIndex rt g name) db =
      kept.write (blockBatch kept (namedPrefix rt g name) .propIndex) := rfl
  have hcleared := (Cleared.refl kept (namedPrefix rt g name)).write .propIndex
  rw [hexec, hcleared .propIndex k, hkept, Db.getElem?_apply]
  simp only [WriteOp.cf, WriteOp.key, WriteOp.result, true_and, List.nil_append, List.mem_singleton]
  grind

theorem dropIndex_onlyIn (g : GraphId) (name : String) :
    Emits (OnlyIn .propIndex) (IndexManager.dropIndex rt g name) := by
  unfold IndexManager.dropIndex
  apply emits_bind
  · refine emits_write ?_
    simp [OnlyIn, WriteOp.cf]
  · intro _ db batch hbatch
    rw [bind_ok rfl] at hbatch
    obtain rfl := List.mem_singleton.mp hbatch
    intro op hop
    obtain ⟨e, -, rfl⟩ := List.mem_map.mp hop
    rfl

end Definitions

/-! ## Entries -/

section Entries

/-- The key under which an index finds a node. -/
def ownKey (index : IndexDefinition) (node : Node) : Bytes :=
  IndexManager.entryKey rt index (encodeProperties rt index node) node.id

theorem indexNode_cases (index : IndexDefinition) (node : Node) (db : Db) :
    (index.unique ∧ IndexManager.hasDuplicate rt db index node ∧
      (∃ e, (IndexManager.indexNode rt index node db).result = .error e) ∧
      exec (IndexManager.indexNode rt index node) db = db) ∨
    (¬ (index.unique ∧ IndexManager.hasDuplicate rt db index node) ∧
      (IndexManager.indexNode rt index node db).result = .ok () ∧
      exec (IndexManager.indexNode rt index node) db =
        db.apply (.put .propIndex (ownKey rt index node) [])) := by
  rw [IndexManager.indexNode]
  by_cases hunique : index.unique
  · have hread : ((read fun db => .ok (IndexManager.hasDuplicate rt db index node) : StorageM Bool)
        db).result = .ok (IndexManager.hasDuplicate rt db index node) := rfl
    rw [if_pos hunique, result_bind_ok hread, exec_bind_ok hread]
    by_cases hdup : IndexManager.hasDuplicate rt db index node
    · rw [hdup]
      exact .inl ⟨hunique, rfl, ⟨_, rfl⟩, rfl⟩
    · rw [Bool.not_eq_true] at hdup
      rw [hdup]
      exact .inr ⟨by simp, rfl, rfl⟩
  · rw [if_neg hunique]
    exact .inr ⟨fun h => hunique h.1, rfl, rfl⟩

theorem indexNode_onlyIn (index : IndexDefinition) (node : Node) :
    Emits (OnlyIn .propIndex) (IndexManager.indexNode rt index node) := by
  have hput : Emits (OnlyIn .propIndex) (putCf .propIndex (ownKey rt index node) []) := by
    refine emits_write ?_
    simp [OnlyIn, WriteOp.cf]
  unfold IndexManager.indexNode
  dsimp only
  split
  · refine emits_bind (emits_read _) fun duplicate => ?_
    split
    · exact emits_read _
    · exact hput
  · exact hput

theorem unindexNode_onlyIn (index : IndexDefinition) (node : Node) :
    Emits (OnlyIn .propIndex) (IndexManager.unindexNode rt index node) := by
  refine emits_write ?_
  simp [OnlyIn, WriteOp.cf]

end Entries

end Synaptica.Storage
