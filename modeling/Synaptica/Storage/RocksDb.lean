import Synaptica.Lib.OrderedMap

/-!
# The key-value store underneath

Everything the database persists lives in one RocksDB instance with a fixed set of column
families. We take RocksDB at its documented contract: each column family is a byte-ordered map,
a `WriteBatch` is applied atomically and in order, and an iterator walks a consistent view in key
order. I/O errors are outside the model; a lookup of a column family that was not opened is not.
-/

namespace Synaptica.Storage

/-- The column families `StorageEngine::open` creates. -/
inductive ColumnFamily where
  | default
  | nodes
  | edges
  | adjOut
  | adjIn
  | nodeLabels
  | edgeLabels
  | propIndex
  | graphMeta
  | schema
  | raftLog
  | raftMeta
  deriving DecidableEq, Repr

namespace ColumnFamily

/-- The name a column family is opened under. -/
def name : ColumnFamily → String
  | default => "default"
  | nodes => "nodes"
  | edges => "edges"
  | adjOut => "adj_out"
  | adjIn => "adj_in"
  | nodeLabels => "node_labels"
  | edgeLabels => "edge_labels"
  | propIndex => "prop_index"
  | graphMeta => "graph_meta"
  | schema => "schema"
  | raftLog => "raft_log"
  | raftMeta => "raft_meta"

/-- `ColumnFamilies::all`. -/
def all : List ColumnFamily :=
  [default, nodes, edges, adjOut, adjIn, nodeLabels, edgeLabels, propIndex, graphMeta, schema,
    raftLog, raftMeta]

end ColumnFamily

/-- `DB::cf_handle`: column families are looked up by name. -/
def cfHandle (name : String) : Option ColumnFamily :=
  ColumnFamily.all.find? (fun c => c.name == name)

/-- Each column family is found under its own name. -/
theorem cfHandle_name (c : ColumnFamily) : cfHandle c.name = some c := by
  cases c <;> decide

/-- A handle fixes the name it was obtained under. -/
theorem name_of_cfHandle {name : String} {c : ColumnFamily} (h : cfHandle name = some c) :
    c.name = name := by
  simpa using List.find?_some h

/-- The content of one column family. -/
abbrev Table := OrderedMap Bytes Bytes

/-- The content of the database. -/
abbrev Db := ColumnFamily → Table

/-- A freshly created database. -/
def Db.empty : Db := fun _ => ∅

/-- One operation of a `WriteBatch`. -/
inductive WriteOp where
  | put (cf : ColumnFamily) (key value : Bytes)
  | delete (cf : ColumnFamily) (key : Bytes)
  deriving DecidableEq, Repr

/-- `rocksdb::WriteBatch`: operations applied together, in order. -/
abbrev WriteBatch := List WriteOp

namespace WriteOp

/-- The column family an operation touches. -/
def cf : WriteOp → ColumnFamily
  | put cf _ _ => cf
  | delete cf _ => cf

/-- The key an operation touches. -/
def key : WriteOp → Bytes
  | put _ key _ => key
  | delete _ key => key

/-- What the operation leaves under its key. -/
def result : WriteOp → Option Bytes
  | put _ _ value => some value
  | delete _ _ => none

end WriteOp

/-- Apply one operation. -/
def Db.apply (db : Db) : WriteOp → Db
  | .put cf key value => Function.update db cf ((db cf).insert key value)
  | .delete cf key => Function.update db cf ((db cf).erase key)

/-- `DB::write`. -/
def Db.write (db : Db) (batch : WriteBatch) : Db := batch.foldl Db.apply db

/-! ## Reading after writing -/

theorem Db.getElem?_apply (db : Db) (op : WriteOp) (c : ColumnFamily) (k : Bytes) :
    (db.apply op c)[k]? = if op.cf = c ∧ op.key = k then op.result else (db c)[k]? := by
  cases op with
  | put cf key value =>
    by_cases hc : cf = c
    · subst hc
      simp [Db.apply, WriteOp.cf, WriteOp.key, WriteOp.result, OrderedMap.getElem?_insert]
    · simp [Db.apply, WriteOp.cf, hc, Function.update_of_ne (Ne.symm hc)]
  | delete cf key =>
    by_cases hc : cf = c
    · subst hc
      simp [Db.apply, WriteOp.cf, WriteOp.key, WriteOp.result, OrderedMap.getElem?_erase]
    · simp [Db.apply, WriteOp.cf, hc, Function.update_of_ne (Ne.symm hc)]

@[simp] theorem Db.write_nil (db : Db) : db.write [] = db := rfl

@[simp] theorem Db.write_cons (db : Db) (op : WriteOp) (batch : WriteBatch) :
    db.write (op :: batch) = (db.apply op).write batch := rfl

theorem Db.write_append (db : Db) (b b' : WriteBatch) :
    db.write (b ++ b') = (db.write b).write b' := by
  simp [Db.write, List.foldl_append]

/-- A batch changes only the keys it names. -/
theorem Db.getElem?_write_of_forall_ne {db : Db} {batch : WriteBatch} {c : ColumnFamily} {k : Bytes}
    (h : ∀ op ∈ batch, ¬ (op.cf = c ∧ op.key = k)) : (db.write batch c)[k]? = (db c)[k]? := by
  induction batch generalizing db with
  | nil => rfl
  | cons op batch ih =>
    rw [Db.write_cons, ih fun op' hop' => h op' (List.mem_cons_of_mem _ hop')]
    rw [Db.getElem?_apply, if_neg (h op List.mem_cons_self)]

/-- A batch leaves the column families it does not name as they were. -/
theorem Db.write_of_forall_cf_ne {db : Db} {batch : WriteBatch} {c : ColumnFamily}
    (h : ∀ op ∈ batch, op.cf ≠ c) : db.write batch c = db c := by
  apply Std.ExtTreeMap.ext_getElem?
  intro k
  apply Db.getElem?_write_of_forall_ne
  intro op hop hck
  exact h op hop hck.1

/-- Deleting a list of keys. -/
theorem Db.getElem?_write_deletes {β : Type} (db : Db) (cf c : ColumnFamily) (key : β → Bytes)
    (xs : List β) (k : Bytes) :
    (db.write (xs.map fun x => WriteOp.delete cf (key x)) c)[k]? =
      if cf = c ∧ k ∈ xs.map key then none else (db c)[k]? := by
  induction xs generalizing db with
  | nil => simp
  | cons x xs ih =>
    rw [List.map_cons, Db.write_cons, ih, Db.getElem?_apply, List.map_cons]
    simp only [WriteOp.cf, WriteOp.key, WriteOp.result, List.mem_cons]
    grind

/-- Putting one value under a list of keys. -/
theorem Db.getElem?_write_puts {β : Type} (db : Db) (cf c : ColumnFamily) (key : β → Bytes)
    (xs : List β) (v k : Bytes) :
    (db.write (xs.map fun x => WriteOp.put cf (key x) v) c)[k]? =
      if cf = c ∧ k ∈ xs.map key then some v else (db c)[k]? := by
  induction xs generalizing db with
  | nil => simp
  | cons x xs ih =>
    rw [List.map_cons, Db.write_cons, ih, Db.getElem?_apply, List.map_cons]
    simp only [WriteOp.cf, WriteOp.key, WriteOp.result, List.mem_cons]
    grind

/-- **The last operation on a key decides.** -/
theorem Db.getElem?_write (db : Db) (batch : WriteBatch) (c : ColumnFamily) (k : Bytes) :
    (db.write batch c)[k]? =
      match batch.reverse.find? (fun op => decide (op.cf = c ∧ op.key = k)) with
      | some op => op.result
      | none => (db c)[k]? := by
  induction batch using List.reverseRecOn generalizing db with
  | nil => rfl
  | append_singleton batch op ih =>
    rw [Db.write_append, Db.write_cons, Db.write_nil, Db.getElem?_apply, ih]
    rw [List.reverse_append, List.reverse_singleton, List.singleton_append, List.find?_cons]
    by_cases h : op.cf = c ∧ op.key = k
    · simp [h]
    · simp only [h, if_false, decide_false]

/-- A column family after a batch depends on nothing but that column family. -/
theorem Db.write_congr {db db' : Db} {c : ColumnFamily} (h : db c = db' c) (batch : WriteBatch) :
    db.write batch c = db'.write batch c := by
  apply Std.ExtTreeMap.ext_getElem?
  intro k
  rw [Db.getElem?_write, Db.getElem?_write, h]

end Synaptica.Storage
