import Synaptica.Storage.IndexEffects
import Synaptica.Storage.ValueKeys

/-!
# What a property index holds

A property index is meant as a set of entries — these values, this node — that calls add to and
remove from, and that is asked for exact values or for a range of first values. `contents` is that
set after a run of calls, and `Holds` ties a store to it: under the prefix of each index there are
exactly the keys of its entries. Every call preserves the tie (`Holds.step`), and on indexed values
keys can be taken apart again (`eq_of_encodeValues_isPrefix`), so the reads answer from the set:

* `lookup_exact` — a lookup returns the nodes indexed under the values, each once;
* `rangeScan_ordered` — a range scan returns the nodes whose first value lies in the range, in the
  order of the values.

Properties are indexed here as NULL (or missing), booleans, integers and strings.
-/

open Journaled

namespace Synaptica.Storage

open OrderedMap (scan seek)

variable (rt : Runtime)

/-! ## Calls and contents -/

/-- A call on an index manager. -/
inductive IndexCall where
  | createIndex (index : IndexDefinition)
  | indexNode (index : IndexDefinition) (node : Node)
  | unindexNode (index : IndexDefinition) (node : Node)
  | dropIndex (graphId : GraphId) (name : String)

/-- One entry of an index: the index, the values of its properties, and the node. -/
structure IndexEntry where
  graphId : GraphId
  name : String
  values : List Value
  id : NodeId

/-- The values of the indexed properties; a missing one counts as NULL. -/
def indexedValues (index : IndexDefinition) (node : Node) : List Value :=
  index.propertyNames.map fun name => (node.getProperty name).getD .null

/-- The entry of a node in an index. -/
def entryOf (index : IndexDefinition) (node : Node) : IndexEntry :=
  ⟨index.graphId, index.name, indexedValues index node, node.id⟩

/-- Another node has the values of the node. -/
def IsDuplicate (contents : Set IndexEntry) (index : IndexDefinition) (node : Node) : Prop :=
  ∃ id, id ≠ node.id ∧ { entryOf index node with id } ∈ contents

namespace IndexCall

def call : IndexCall → StorageM Unit
  | createIndex index => IndexManager.createIndex rt index
  | indexNode index node => IndexManager.indexNode rt index node
  | unindexNode index node => IndexManager.unindexNode rt index node
  | dropIndex graphId name => IndexManager.dropIndex rt graphId name

/-- The store after a run of calls on a new one; a failed call changes nothing. -/
def run (calls : List IndexCall) : Db :=
  calls.foldl (fun db (c : IndexCall) => exec (c.call rt) db) Db.empty

/-- What a call does to the entries. A unique index takes no node whose values another node has. -/
def apply (contents : Set IndexEntry) : IndexCall → Set IndexEntry
  | createIndex _ => contents
  | indexNode index node =>
    {e | e ∈ contents ∨ (e = entryOf index node ∧ ¬ (index.unique ∧ IsDuplicate contents index node))}
  | unindexNode index node => {e | e ∈ contents ∧ e ≠ entryOf index node}
  | dropIndex graphId name => {e | e ∈ contents ∧ ¬ (e.graphId = graphId ∧ e.name = name)}

/-- The entries after a run of calls. -/
def contents (calls : List IndexCall) : Set IndexEntry := calls.foldl apply ∅

end IndexCall

/-- The definition is one of the indexes in use: its name is among `names` and its properties are
those of the index. -/
structure IndexDefinition.InUse (props : GraphId → String → List String) (names : Set String)
    (index : IndexDefinition) : Prop where
  name_mem : index.name ∈ names
  propertyNames_eq : index.propertyNames = props index.graphId index.name

/-- Every call is about an index in use, and the values it indexes are NULL, booleans, integers or
strings. -/
def IndexCall.Uses (props : GraphId → String → List String) (names : Set String) :
    IndexCall → Prop
  | createIndex index => index.InUse props names
  | indexNode index node | unindexNode index node =>
    index.InUse props names ∧ ∀ v ∈ indexedValues index node, isKeyValue v
  | dropIndex _ name => name ∈ names

/-! ## Keys of entries -/

/-- The key of an entry. -/
def IndexEntry.key (e : IndexEntry) : Bytes :=
  namedPrefix rt e.graphId e.name ++ (encodeValues rt e.values ++ e.id.asBytes)

theorem ownKey_eq (index : IndexDefinition) (node : Node) :
    ownKey rt index node = (entryOf index node).key rt := List.append_assoc _ _ _

theorem namedPrefix_prefix {g g' : GraphId} {name name' : String} {x : Bytes}
    (h : namedPrefix rt g name <+: namedPrefix rt g' name' ++ x) :
    g = g' ∧ rt.hash name = rt.hash name' := by
  have heq : namedPrefix rt g name = namedPrefix rt g' name' :=
    eq_of_prefix_append (by simp [namedPrefix, hashIndexName]) h
  obtain ⟨hg, hname⟩ := List.append_inj heq (by simp)
  refine ⟨GraphId.asBytes_injective hg, ?_⟩
  rw [List.cons.injEq, hashIndexName, hashIndexName,
    BigEndian.beBytes_inj (toNat_lt_width _) (toNat_lt_width _), UInt64.toNat_inj] at hname
  exact hname.2

/-- A definition is not stored among entries. -/
theorem not_namedPrefix_metaKey (g g' : GraphId) (name name' : String) :
    ¬ namedPrefix rt g name <+: IndexManager.metaKey g' name' := by
  rintro ⟨x, hx⟩
  rw [namedPrefix, IndexManager.metaKey, List.append_assoc] at hx
  obtain ⟨-, hmarker⟩ := List.append_inj hx (by simp)
  simp at hmarker

theorem encodeValues_cons (v : Value) (vs : List Value) :
    encodeValues rt (v :: vs) = encodeValueComparable rt v ++ encodeValues rt vs := List.flatMap_cons

/-- **Lists of values of one length can be told apart**, whatever follows them. -/
theorem eq_of_encodeValues_isPrefix {vs ws : List Value} (hlen : vs.length = ws.length)
    (hws : ∀ w ∈ ws, isKeyValue w) (rest : Bytes)
    (h : encodeValues rt vs <+: encodeValues rt ws ++ rest) : vs = ws := by
  induction vs generalizing ws with
  | nil =>
    cases ws with
    | nil => rfl
    | cons w ws => cases hlen
  | cons v vs ih =>
    cases ws with
    | nil => cases hlen
    | cons w ws =>
      rw [encodeValues_cons, encodeValues_cons, List.append_assoc] at h
      obtain rfl := eq_of_encode_isPrefix rt (hws w List.mem_cons_self) _ ((List.prefix_append _ _).trans h)
      rw [List.prefix_append_right_inj] at h
      rw [ih (Nat.succ.inj hlen) (fun u hu => hws u (List.mem_cons_of_mem _ hu)) h]

/-! ## Stores that hold the contents -/

variable {rt} {props : GraphId → String → List String} {names : Set String} {db : Db}
  {contents : Set IndexEntry}

/-- An entry of an index in use. -/
structure IndexEntry.InUse (props : GraphId → String → List String) (names : Set String)
    (e : IndexEntry) : Prop where
  name_mem : e.name ∈ names
  length_eq : e.values.length = (props e.graphId e.name).length
  isKeyValue : ∀ v ∈ e.values, isKeyValue v

/-- Under the prefix of each index in use, the store has exactly the keys of its entries. -/
structure Holds (rt : Runtime) (props : GraphId → String → List String) (names : Set String)
    (db : Db) (contents : Set IndexEntry) : Prop where
  inUse : ∀ e ∈ contents, e.InUse props names
  keys : ∀ g name, name ∈ names → ∀ b : Bytes, namedPrefix rt g name <+: b →
    (((db .propIndex)[b]?).isSome ↔ ∃ e ∈ contents, e.key rt = b)

theorem IndexDefinition.InUse.entryOf {index : IndexDefinition} (h : index.InUse props names)
    {node : Node} (hnode : ∀ v ∈ indexedValues index node, isKeyValue v) :
    (entryOf index node).InUse props names where
  name_mem := h.name_mem
  length_eq := by simp [Storage.entryOf, indexedValues, h.propertyNames_eq]
  isKeyValue := hnode

theorem namedPrefix_key (e : IndexEntry) : namedPrefix rt e.graphId e.name <+: e.key rt :=
  List.prefix_append _ _

/-- The index and the values under which a key was made. -/
theorem index_of_prefix_key (hhash : Set.InjOn rt.hash names) {g : GraphId} {name : String}
    (hname : name ∈ names) {e : IndexEntry} (he : e.InUse props names)
    (h : namedPrefix rt g name <+: e.key rt) : e.graphId = g ∧ e.name = name := by
  obtain ⟨hg, hh⟩ := namedPrefix_prefix rt h
  exact ⟨hg.symm, (hhash hname he.name_mem hh).symm⟩

theorem key_inj (hhash : Set.InjOn rt.hash names) {e e' : IndexEntry} (he : e.InUse props names)
    (he' : e'.InUse props names) (h : e.key rt = e'.key rt) : e = e' := by
  obtain ⟨hg, hname⟩ := index_of_prefix_key hhash he.name_mem he' (h ▸ namedPrefix_key e)
  obtain ⟨g, name, vs, id⟩ := e
  obtain ⟨g', name', vs', id'⟩ := e'
  simp only at hg hname
  subst hg hname
  have hvs : vs = vs' := by
    refine eq_of_encodeValues_isPrefix rt ?_ he'.isKeyValue _ ⟨id.asBytes, List.append_cancel_left h⟩
    rw [he.length_eq, he'.length_eq]
  subst hvs
  rw [IndexEntry.key, IndexEntry.key, List.append_cancel_left_eq, List.append_cancel_left_eq] at h
  obtain rfl : id = id' := NodeId.asBytes_injective h
  rfl

/-- The keys under given values are those of the entries with these values. -/
theorem Holds.values_iff (hhash : Set.InjOn rt.hash names) (h : Holds rt props names db contents)
    {index : IndexDefinition} (hindex : index.InUse props names) {values : List Value}
    (hlen : values.length = index.propertyNames.length) {b : Bytes} :
    (((db .propIndex)[b]?).isSome ∧
        IndexManager.entryValuePrefix rt index (encodeValues rt values) <+: b) ↔
      ∃ id, (⟨index.graphId, index.name, values, id⟩ : IndexEntry) ∈ contents ∧
        IndexEntry.key rt ⟨index.graphId, index.name, values, id⟩ = b := by
  have hunder : namedPrefix rt index.graphId index.name <+:
      IndexManager.entryValuePrefix rt index (encodeValues rt values) := List.prefix_append _ _
  constructor
  · rintro ⟨hb, hp⟩
    obtain ⟨e, he, rfl⟩ := (h.keys _ _ hindex.name_mem b (hunder.trans hp)).mp hb
    have hgood := h.inUse e he
    obtain ⟨hg, hname⟩ := index_of_prefix_key hhash hindex.name_mem hgood (hunder.trans hp)
    obtain ⟨g, name, vs, id⟩ := e
    simp only at hg hname
    subst hg hname
    have hvs : values = vs := by
      refine eq_of_encodeValues_isPrefix rt ?_ hgood.isKeyValue id.asBytes ?_
      · rw [hlen, hgood.length_eq, hindex.propertyNames_eq]
      · exact (List.prefix_append_right_inj _).mp hp
    subst hvs
    exact ⟨id, he, rfl⟩
  · rintro ⟨id, he, rfl⟩
    refine ⟨(h.keys index.graphId _ hindex.name_mem _ ?_).mpr ⟨_, he, rfl⟩, ?_⟩
    · exact List.prefix_append _ _
    · exact ⟨id.asBytes, List.append_assoc _ _ _⟩

theorem Holds.hasDuplicate_iff (hhash : Set.InjOn rt.hash names)
    (h : Holds rt props names db contents) {index : IndexDefinition}
    (hindex : index.InUse props names) (node : Node) :
    IndexManager.hasDuplicate rt db index node ↔ IsDuplicate contents index node := by
  have hlen : (indexedValues index node).length = index.propertyNames.length := by
    simp [indexedValues]
  have hsuffix : ∀ e : IndexEntry, 16 ≤ (e.key rt).length ∧ idSuffix (e.key rt) = e.id.asBytes := by
    intro e
    rw [IndexEntry.key, ← List.append_assoc, idSuffix_append (by simp)]
    simp
    omega
  rw [IndexManager.hasDuplicate, List.any_eq_true]
  simp only [Bool.and_eq_true, decide_eq_true_eq, bne_iff_ne, OrderedMap.mem_scan]
  constructor
  · rintro ⟨e, ⟨hb, hp⟩, -, hne⟩
    obtain ⟨id, hid, hkey⟩ := (h.values_iff hhash hindex hlen).mp ⟨by simp [hb], hp⟩
    refine ⟨id, ?_, hid⟩
    rw [← hkey, (hsuffix _).2] at hne
    rintro rfl
    exact hne rfl
  · rintro ⟨id, hne, hid⟩
    obtain ⟨hb, hp⟩ := (h.values_iff hhash hindex hlen).mpr ⟨id, hid, rfl⟩
    obtain ⟨v, hv⟩ := Option.isSome_iff_exists.mp hb
    refine ⟨(_, v), ⟨hv, hp⟩, (hsuffix _).1, fun heq => hne (NodeId.asBytes_injective ?_)⟩
    exact (hsuffix _).2.symm.trans heq

/-! ## One call -/

theorem holds_empty : Holds rt props names Db.empty ∅ where
  inUse e he := he.elim
  keys g name _ b _ := by simp [Db.empty]

/-- **One call** keeps the store in step with the entries. -/
theorem Holds.step (hhash : Set.InjOn rt.hash names) (h : Holds rt props names db contents)
    {c : IndexCall} (hc : c.Uses props names) :
    Holds rt props names (exec (c.call rt) db) (c.apply contents) := by
  cases c with
  | createIndex index =>
    refine ⟨h.inUse, fun g name hname b hb => ?_⟩
    have hget : (exec (IndexManager.createIndex rt index) db .propIndex)[b]? =
        (db .propIndex)[b]? := by
      rcases createIndex_cases rt index db with ⟨e, -, hexec⟩ | ⟨value, -, -, hexec⟩
      · rw [hexec]
      · rw [hexec, Db.getElem?_apply, if_neg]
        rintro ⟨-, hkey⟩
        refine not_namedPrefix_metaKey rt g index.graphId name index.name ?_
        rwa [← hkey] at hb
    rw [IndexCall.call, hget]
    exact h.keys g name hname b hb
  | indexNode index node =>
    obtain ⟨hindex, hnode⟩ := hc
    rcases indexNode_cases rt index node db with ⟨hu, hdup, -, hexec⟩ | ⟨hno, -, hexec⟩
    · -- refused, and nothing is added
      have hsame : (IndexCall.indexNode index node).apply contents = contents := by
        ext e
        rw [h.hasDuplicate_iff hhash hindex] at hdup
        simp [IndexCall.apply, hu, hdup]
      rw [IndexCall.call, hexec, hsame]
      exact h
    · rw [h.hasDuplicate_iff hhash hindex] at hno
      have hadd : ∀ e, e ∈ (IndexCall.indexNode index node).apply contents ↔
          e ∈ contents ∨ e = entryOf index node := by
        intro e
        simp [IndexCall.apply, hno]
      refine ⟨fun e he => ?_, fun g name hname b hb => ?_⟩
      · rcases (hadd e).mp he with he | rfl
        · exact h.inUse e he
        · exact hindex.entryOf hnode
      · rw [IndexCall.call, hexec, Db.getElem?_apply]
        simp only [WriteOp.cf, WriteOp.key, WriteOp.result, true_and, ownKey_eq, hadd]
        split
        · next hkey => exact iff_of_true rfl ⟨_, .inr rfl, hkey⟩
        · next hkey =>
          rw [h.keys g name hname b hb]
          constructor
          · rintro ⟨e, he, rfl⟩
            exact ⟨e, .inl he, rfl⟩
          · rintro ⟨e, he | rfl, hke⟩
            · exact ⟨e, he, hke⟩
            · exact absurd hke hkey
  | unindexNode index node =>
    obtain ⟨hindex, hnode⟩ := hc
    refine ⟨fun e he => h.inUse e he.1, fun g name hname b hb => ?_⟩
    have hexec : exec (IndexManager.unindexNode rt index node) db =
        db.apply (.delete .propIndex (ownKey rt index node)) := rfl
    rw [IndexCall.call, hexec, Db.getElem?_apply]
    simp only [WriteOp.cf, WriteOp.key, WriteOp.result, true_and, ownKey_eq, IndexCall.apply,
      Set.mem_ofPred_eq]
    split
    · next hkey =>
      refine iff_of_false (by simp) ?_
      rintro ⟨e, ⟨he, hne⟩, hke⟩
      exact hne (key_inj hhash (h.inUse e he) (hindex.entryOf hnode) (hke.trans hkey.symm))
    · next hkey =>
      rw [h.keys g name hname b hb]
      constructor
      · rintro ⟨e, he, rfl⟩
        exact ⟨e, ⟨he, fun heq => hkey (heq ▸ rfl)⟩, rfl⟩
      · rintro ⟨e, ⟨he, -⟩, hke⟩
        exact ⟨e, he, hke⟩
  | dropIndex g' name' =>
    refine ⟨fun e he => h.inUse e he.1, fun g name hname b hb => ?_⟩
    rw [IndexCall.call, getElem?_dropIndex]
    simp only [IndexCall.apply, Set.mem_ofPred_eq]
    split
    · next hgone =>
      refine iff_of_false (by simp) ?_
      rintro ⟨e, ⟨he, hne⟩, rfl⟩
      rcases hgone with hmeta | hp
      · exact not_namedPrefix_metaKey rt g g' name name' (hmeta ▸ hb)
      · exact hne (index_of_prefix_key hhash hc (h.inUse e he) hp)
    · next hstays =>
      rw [h.keys g name hname b hb]
      constructor
      · rintro ⟨e, he, rfl⟩
        refine ⟨e, ⟨he, fun hindex => hstays (.inr ?_)⟩, rfl⟩
        rw [← hindex.1, ← hindex.2]
        exact namedPrefix_key e
      · rintro ⟨e, ⟨he, -⟩, hke⟩
        exact ⟨e, he, hke⟩

/-- **A run of calls** leaves the store with the keys of the entries. -/
theorem holds_run (hhash : Set.InjOn rt.hash names) (calls : List IndexCall)
    (hcalls : ∀ c ∈ calls, c.Uses props names) :
    Holds rt props names (IndexCall.run rt calls) (IndexCall.contents calls) := by
  have hfold : ∀ (db : Db) (contents : Set IndexEntry), Holds rt props names db contents →
      Holds rt props names (calls.foldl (fun db (c : IndexCall) => exec (c.call rt) db) db)
        (calls.foldl IndexCall.apply contents) := by
    induction calls with
    | nil => exact fun db contents h => h
    | cons c calls ih =>
      intro db contents h
      exact ih (fun c hc => hcalls c (List.mem_cons_of_mem _ hc)) _ _
        (h.step hhash (hcalls c List.mem_cons_self))
  exact hfold Db.empty ∅ holds_empty

/-! ## Reads -/

/-- The identifiers read off keys of entries. -/
theorem entryIds_eq (msg : String) {l : List (Bytes × Bytes)} {es : List IndexEntry}
    (h : es.map (IndexEntry.key rt) = l.map Prod.fst) :
    entryIds msg l = .ok (es.map IndexEntry.id) := by
  have hkeys : ∀ x ∈ l, 16 ≤ x.1.length := by
    intro x hx
    obtain ⟨e, -, he⟩ := List.mem_map.mp (h ▸ List.mem_map_of_mem hx)
    rw [← he, IndexEntry.key]
    simp
    omega
  have hall : l.filter (fun x => decide (16 ≤ x.1.length)) = l :=
    List.filter_eq_self.mpr fun x hx => by simpa using hkeys x hx
  rw [entryIds, hall]
  clear hall hkeys
  induction l generalizing es with
  | nil =>
    obtain rfl := List.map_eq_nil_iff.mp h
    rfl
  | cons x l ih =>
    cases es with
    | nil => cases h
    | cons e es =>
      rw [List.map_cons, List.map_cons, List.cons.injEq] at h
      have hdecode : decodeIdSuffix msg x.1 = .ok e.id.uuid := by
        rw [← h.1, IndexEntry.key, ← List.append_assoc]
        exact decodeIdSuffix_append e.id.uuid
      rw [List.mapM_cons, ih h.2, hdecode]
      rfl

/-- **Lookups are exact**: after any run of calls, a lookup returns the identifiers of the nodes that
are indexed under the values, each of them once. -/
theorem lookup_exact {props : GraphId → String → List String} {names : Set String}
    (hhash : Set.InjOn rt.hash names) (calls : List IndexCall)
    (hcalls : ∀ c ∈ calls, c.Uses props names) (index : IndexDefinition)
    (hindex : index.InUse props names) (values : List Value)
    (hlen : values.length = index.propertyNames.length) :
    ∃ ids, IndexManager.lookup rt (IndexCall.run rt calls) index values = .ok ids ∧ ids.Nodup ∧
      ∀ id, id ∈ ids ↔ ⟨index.graphId, index.name, values, id⟩ ∈ IndexCall.contents calls := by
  have h := holds_run hhash calls hcalls
  set l := scan (IndexCall.run rt calls .propIndex)
    (IndexManager.entryValuePrefix rt index (encodeValues rt values)) with hl
  have hmem : ∀ b, b ∈ l.map Prod.fst ↔
      ∃ id, (⟨index.graphId, index.name, values, id⟩ : IndexEntry) ∈ IndexCall.contents calls ∧
        IndexEntry.key rt ⟨index.graphId, index.name, values, id⟩ = b := by
    intro b
    rw [← h.values_iff hhash hindex hlen, List.mem_map]
    constructor
    · rintro ⟨x, hx, rfl⟩
      obtain ⟨hb, hp⟩ := (OrderedMap.mem_scan _).mp hx
      exact ⟨by simp [hb], hp⟩
    · rintro ⟨hb, hp⟩
      obtain ⟨v, hv⟩ := Option.isSome_iff_exists.mp hb
      exact ⟨(b, v), (OrderedMap.mem_scan _).mpr ⟨hv, hp⟩, rfl⟩
  obtain ⟨es, hes, hin⟩ := @List.exists_map_eq _ _ (IndexEntry.key rt)
    (· ∈ {e | e ∈ IndexCall.contents calls ∧ e = ⟨index.graphId, index.name, values, e.id⟩})
    (l.map Prod.fst) fun b hb => by
      obtain ⟨id, hid, hkey⟩ := (hmem b).mp hb
      exact ⟨_, ⟨hid, rfl⟩, hkey⟩
  have hnodup : es.Nodup := by
    have hsorted := List.pairwise_map.mpr (OrderedMap.pairwise_scan (IndexCall.run rt calls .propIndex)
      (IndexManager.entryValuePrefix rt index (encodeValues rt values)))
    exact (hes ▸ hsorted.imp fun hlt => hlt.ne : (es.map (IndexEntry.key rt)).Nodup).of_map
  refine ⟨es.map IndexEntry.id, entryIds_eq _ hes, ?_, fun id => ?_⟩
  · refine hnodup.map_on fun e he e' he' heq => ?_
    rw [(hin e he).2, (hin e' he').2, heq]
  · rw [List.mem_map]
    constructor
    · rintro ⟨e, he, rfl⟩
      exact (hin e he).2 ▸ (hin e he).1
    · intro hid
      have hb := (hmem _).mpr ⟨id, hid, rfl⟩
      rw [← hes] at hb
      obtain ⟨e, he, hkey⟩ := List.mem_map.mp hb
      refine ⟨e, he, ?_⟩
      rw [key_inj hhash (h.inUse e (hin e he).1) (h.inUse _ hid) hkey]

/-- The entry comes before the other one of the same index: by the first value, then by the bytes of
the rest of the key. -/
def IndexEntry.Before (rt : Runtime) (e e' : IndexEntry) : Prop :=
  ∃ v vs w ws, e.values = v :: vs ∧ e'.values = w :: ws ∧
    (ValueLt v w ∨
      (v = w ∧ encodeValues rt vs ++ e.id.asBytes < encodeValues rt ws ++ e'.id.asBytes))

/-- The first value of the entry lies in the range. -/
def IndexEntry.InRange (start stop : Value) (e : IndexEntry) : Prop :=
  ∃ v vs, e.values = v :: vs ∧ (start = v ∨ ValueLt start v) ∧ ValueLt v stop

/-- The key of an entry from its first value on. -/
theorem key_cons {index : IndexDefinition} {e : IndexEntry} (hg : e.graphId = index.graphId)
    (hname : e.name = index.name) {v : Value} {vs : List Value} (hvs : e.values = v :: vs) :
    e.key rt = IndexManager.entryPrefix rt index ++
      (encodeValueComparable rt v ++ (encodeValues rt vs ++ e.id.asBytes)) := by
  rw [IndexEntry.key, hg, hname, namedPrefix_eq, hvs, encodeValues_cons, List.append_assoc]

variable (rt) in
/-- The keys between the ends of a range are those of the entries in the range. -/
theorem key_range_iff {index : IndexDefinition} (hindex : index.InUse props names)
    (hprops : index.propertyNames ≠ []) {start stop : Value} (htype : SameType start stop)
    {e : IndexEntry} (he : e.InUse props names) (hg : e.graphId = index.graphId)
    (hname : e.name = index.name) :
    (IndexManager.entryPrefix rt index ++ encodeValueComparable rt start ≤ e.key rt ∧
        e.key rt < IndexManager.entryPrefix rt index ++ encodeValueComparable rt stop) ↔
      e.InRange start stop := by
  have hcons : ∃ v vs, e.values = v :: vs := by
    refine List.exists_cons_of_ne_nil fun hnil => hprops ?_
    rw [hindex.propertyNames_eq, ← hg, ← hname, ← List.length_eq_zero_iff, ← he.length_eq, hnil]
    rfl
  obtain ⟨v, vs, hvs⟩ := hcons
  have hv := he.isKeyValue v (hvs ▸ List.mem_cons_self)
  rw [key_cons hg hname hvs, LexOrder.append_le_append_iff, LexOrder.append_lt_append_iff,
    encode_range_iff rt htype hv]
  constructor
  · exact fun hr => ⟨v, vs, hvs, hr⟩
  · rintro ⟨v', vs', hvs', hr⟩
    obtain ⟨rfl, -⟩ := List.cons.inj (hvs.symm.trans hvs')
    exact hr

theorem IndexEntry.InRange.exists_cons {start stop : Value} {e : IndexEntry}
    (h : e.InRange start stop) (htype : SameType start stop) :
    ∃ v vs, e.values = v :: vs ∧ SameType start v := by
  obtain ⟨v, vs, hvs, hlo, -⟩ := h
  refine ⟨v, vs, hvs, ?_⟩
  rcases hlo with rfl | hlo
  · exact htype.trans htype.symm
  · exact hlo.sameType

/-- Among entries in one range, the order of keys is the order of first values. -/
theorem before_of_key_lt {index : IndexDefinition} {start stop : Value}
    (htype : SameType start stop) {e e' : IndexEntry} (hg : e.graphId = index.graphId)
    (hname : e.name = index.name) (hg' : e'.graphId = index.graphId)
    (hname' : e'.name = index.name) (hr : e.InRange start stop) (hr' : e'.InRange start stop)
    (hlt : e.key rt < e'.key rt) : e.Before rt e' := by
  obtain ⟨v, vs, hvs, hv⟩ := hr.exists_cons htype
  obtain ⟨w, ws, hws, hw⟩ := hr'.exists_cons htype
  rw [key_cons hg hname hvs, key_cons hg' hname' hws, LexOrder.append_lt_append_iff] at hlt
  refine ⟨v, vs, w, ws, hvs, hws, ?_⟩
  by_cases heq : v = w
  · subst heq
    exact .inr ⟨rfl, (LexOrder.append_lt_append_iff _ _ _).mp hlt⟩
  · refine .inl ((encode_lt_iff rt (hv.symm.trans hw)).mp ?_)
    exact (encode_append_lt_iff rt hv.symm.isKeyValue_left hw.symm.isKeyValue_left heq _ _).mp hlt

/-- **Range scans respect the order of values**: after any run of calls, a range scan returns the
identifiers of the entries whose first value lies in the range, each entry once, in the order of
that value; and keys are ordered as the values of one type are. -/
theorem rangeScan_ordered {props : GraphId → String → List String} {names : Set String}
    (hhash : Set.InjOn rt.hash names) (calls : List IndexCall)
    (hcalls : ∀ c ∈ calls, c.Uses props names) (index : IndexDefinition)
    (hindex : index.InUse props names) (hprops : index.propertyNames ≠ []) (start stop : Value)
    (htype : SameType start stop) :
    (∃ es : List IndexEntry,
      IndexManager.rangeScan rt (IndexCall.run rt calls) index start stop =
        .ok (es.map IndexEntry.id) ∧
      es.Pairwise (IndexEntry.Before rt) ∧ es.Nodup ∧
      ∀ e, e ∈ es ↔ e ∈ IndexCall.contents calls ∧ e.graphId = index.graphId ∧
        e.name = index.name ∧ e.InRange start stop) ∧
    ∀ v w, SameType v w →
      (encodeValueComparable rt v < encodeValueComparable rt w ↔ ValueLt v w) := by
  refine ⟨?_, fun v w h => encode_lt_iff rt h⟩
  have h := holds_run hhash calls hcalls
  set idxPrefix := IndexManager.entryPrefix rt index with hstarts
  set l := (scan (IndexCall.run rt calls .propIndex) idxPrefix).filter fun x =>
    decide (idxPrefix ++ encodeValueComparable rt start ≤ x.1 ∧
      x.1 < idxPrefix ++ encodeValueComparable rt stop) with hl
  have hmem : ∀ b, b ∈ l.map Prod.fst ↔ ∃ e ∈ IndexCall.contents calls,
      (e.graphId = index.graphId ∧ e.name = index.name ∧ e.InRange start stop) ∧ e.key rt = b := by
    intro b
    simp only [hl, List.mem_map, List.mem_filter, OrderedMap.mem_scan, decide_eq_true_eq]
    constructor
    · rintro ⟨x, ⟨⟨hx, hp⟩, hrange⟩, rfl⟩
      obtain ⟨e, he, hke⟩ := (h.keys _ _ hindex.name_mem x.1 hp).mp (by simp [hx])
      rw [← hke] at hp hrange
      obtain ⟨hg, hname⟩ := index_of_prefix_key hhash hindex.name_mem (h.inUse e he) hp
      have hr := (key_range_iff rt hindex hprops htype (h.inUse e he) hg hname).mp hrange
      exact ⟨e, he, ⟨hg, hname, hr⟩, hke⟩
    · rintro ⟨e, he, ⟨hg, hname, hr⟩, rfl⟩
      have hp : idxPrefix <+: e.key rt := by
        rw [hstarts, ← namedPrefix_eq, ← hg, ← hname]
        exact namedPrefix_key e
      obtain ⟨v, hv⟩ := Option.isSome_iff_exists.mp
        ((h.keys _ _ hindex.name_mem _ hp).mpr ⟨e, he, rfl⟩)
      have hrange := (key_range_iff rt hindex hprops htype (h.inUse e he) hg hname).mpr hr
      exact ⟨(e.key rt, v), ⟨⟨hv, hp⟩, hrange⟩, rfl⟩
  obtain ⟨es, hes, hin⟩ := @List.exists_map_eq _ _ (IndexEntry.key rt)
    (· ∈ {e | e ∈ IndexCall.contents calls ∧ e.graphId = index.graphId ∧ e.name = index.name ∧
      e.InRange start stop}) (l.map Prod.fst) fun b hb => by
      obtain ⟨e, he, hr, hkey⟩ := (hmem b).mp hb
      exact ⟨e, ⟨he, hr⟩, hkey⟩
  have hsorted : es.Pairwise fun e e' => e.key rt < e'.key rt := by
    have hkeys := List.pairwise_map.mpr
      ((OrderedMap.pairwise_scan (IndexCall.run rt calls .propIndex) idxPrefix).filter fun x =>
        decide (idxPrefix ++ encodeValueComparable rt start ≤ x.1 ∧
          x.1 < idxPrefix ++ encodeValueComparable rt stop))
    exact List.pairwise_map.mp (hes ▸ hkeys)
  refine ⟨es, ?_, ?_, ?_, fun e => ?_⟩
  · have hone : ∀ v, encodeValues rt [v] = encodeValueComparable rt v :=
      fun v => List.append_nil _
    rw [IndexManager.rangeScan, hone, hone, OrderedMap.takeWhile_seek_eq_filter_scan _
      (List.prefix_append _ _)]
    exact entryIds_eq _ hes
  · refine hsorted.imp_of_mem fun {e e'} he he' hlt => ?_
    obtain ⟨-, hg, hname, hr⟩ := hin e he
    obtain ⟨-, hg', hname', hr'⟩ := hin e' he'
    exact before_of_key_lt htype hg hname hg' hname' hr hr' hlt
  · exact hsorted.imp fun hlt => ne_of_apply_ne (IndexEntry.key rt) hlt.ne
  · constructor
    · exact fun he => hin e he
    · rintro ⟨he, hr⟩
      have hb := (hmem _).mpr ⟨e, he, hr, rfl⟩
      rw [← hes] at hb
      obtain ⟨e', he', hkey'⟩ := List.mem_map.mp hb
      rw [← key_inj hhash (h.inUse e' (hin e' he').1) (h.inUse e he) hkey']
      exact he'

/-! ## A sample -/

section Sample

/-- A plain index on `p`. -/
def byP : IndexDefinition := ⟨"i", sampleGraph, .node, ["p"], false⟩

/-- A text with a NUL in it, and the node that has it. -/
def withNul : Node :=
  { person with properties := Std.ExtTreeMap.ofList [("p", .string (String.ofList ['a', '\x00']))] _ }

/-- The same node is indexed under two values of `p`: a text with a NUL, and nothing. -/
def indexedTwice : List IndexCall :=
  [.createIndex byP, .indexNode byP withNul, .indexNode byP person]

theorem uses_indexedTwice : ∀ c ∈ indexedTwice, c.Uses (fun _ _ => ["p"]) {"i"} := by
  have hindex : byP.InUse (fun _ _ => ["p"]) {"i"} := ⟨rfl, rfl⟩
  simp only [indexedTwice, List.mem_cons, List.not_mem_nil, or_false]
  rintro c (rfl | rfl | rfl)
  · exact hindex
  · exact ⟨hindex, by decide⟩
  · exact ⟨hindex, by decide⟩

theorem lookup_exact_indexedTwice :
    ∃ ids, IndexManager.lookup sampleRuntime (IndexCall.run sampleRuntime indexedTwice) byP [.null] =
        .ok ids ∧ ids.Nodup ∧
      ∀ id, id ∈ ids ↔
        ⟨byP.graphId, byP.name, [.null], id⟩ ∈ IndexCall.contents indexedTwice :=
  lookup_exact (Set.injOn_singleton _ _) indexedTwice uses_indexedTwice byP ⟨rfl, rfl⟩ [.null] rfl

theorem rangeScan_ordered_indexedTwice :
    (∃ es : List IndexEntry,
      IndexManager.rangeScan sampleRuntime (IndexCall.run sampleRuntime indexedTwice) byP
        (.string "a") (.string "b") = .ok (es.map IndexEntry.id) ∧
      es.Pairwise (IndexEntry.Before sampleRuntime) ∧ es.Nodup ∧
      ∀ e, e ∈ es ↔ e ∈ IndexCall.contents indexedTwice ∧ e.graphId = byP.graphId ∧
        e.name = byP.name ∧ e.InRange (.string "a") (.string "b")) ∧
    ∀ v w, SameType v w →
      (encodeValueComparable sampleRuntime v < encodeValueComparable sampleRuntime w ↔
        ValueLt v w) :=
  rangeScan_ordered (Set.injOn_singleton _ _) indexedTwice uses_indexedTwice byP ⟨rfl, rfl⟩
    (by decide) (.string "a") (.string "b") trivial

end Sample

end Synaptica.Storage
