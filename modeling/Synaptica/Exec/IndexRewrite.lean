import Synaptica.Exec.Conjuncts
import Synaptica.Exec.IndexUpkeep
import Synaptica.Storage.IdOrder

/-!
# Filters as index scans

Over a complete index the plan that `try_index_scan` puts in the place of a filtered scan succeeds when
the filtered scan does, and it finds the nodes that have all of the labels and satisfy the predicate, in
the order of their identifiers. The scan answers in that order too. It finds the same nodes unless it
goes by a single label: the key of a label is cut at 65535 bytes, and the scan of one label does not look
at the nodes again (`indexScan_agrees_iff`).
-/

open Journaled

namespace Synaptica.Exec

open Gql Storage

variable {env : Env} {graphId : GraphId} {db : Db}

/-! ## Filters of nodes -/

/-- The predicate is true of the node. -/
def selects (env : Env) (v : String) (predicate : Expression) (n : Node) : Bool :=
  match evaluate env (boundTo v n) predicate with
  | .ok x => x = .bool true
  | .error _ => false

theorem selects_iff {v : String} {predicate : Expression} {n : Node} :
    selects env v predicate n ↔ evaluate env (boundTo v n) predicate = .ok (.bool true) := by
  unfold selects
  cases evaluate env (boundTo v n) predicate <;> simp

/-- A filter over the rows of nodes is a filter of the nodes. -/
theorem execFilter_nodeResultSet {v : String} {keys : List String} {ns : List Node} {e : Expression}
    {rs : ResultSet} (he : ∀ n ∈ ns, evaluate env ⟨nodeColumns keys (some v), nodeRow keys (some v) n⟩ e =
      evaluate env (boundTo v n) e) :
    execFilter env (nodeResultSet keys (some v) ns) e = .ok rs ↔
      (∀ n ∈ ns, ∃ x, evaluate env (boundTo v n) e = .ok x) ∧
        rs = nodeResultSet keys (some v) (ns.filter (selects env v e)) := by
  have hrecords : ∀ kept, filterRecords env e (nodeResultSet keys (some v) ns).records = .ok kept ↔
      (∀ n ∈ ns, ∃ x, evaluate env (boundTo v n) e = .ok x) ∧
        kept = (nodeResultSet keys (some v) (ns.filter (selects env v e))).records := by
    induction ns with
    | nil =>
      intro kept
      show (Except.ok [] : Except ExecError (List Record)) = .ok kept ↔ _
      simp [nodeResultSet, ResultSet.ofRows, eq_comm]
    | cons n ns ih =>
      intro kept
      obtain ⟨hn, hns⟩ := List.forall_mem_cons.mp he
      show filterRecords env e (⟨nodeColumns keys (some v), nodeRow keys (some v) n⟩ ::
        (nodeResultSet keys (some v) ns).records) = .ok kept ↔ _
      simp only [filterRecords, Except.bind_eq_ok, Except.pure_eq_ok, ih hns, hn, List.forall_mem_cons,
        List.filter_cons]
      constructor
      · rintro ⟨x, hx, rest, ⟨hall, rfl⟩, rfl⟩
        refine ⟨⟨⟨x, hx⟩, hall⟩, ?_⟩
        by_cases htrue : x = .bool true
        · rw [if_pos htrue, if_pos (selects_iff.mpr (htrue ▸ hx))]
          rfl
        · rw [if_neg htrue, if_neg fun hsel => htrue ?_]
          rw [selects_iff, hx] at hsel
          cases hsel
          rfl
      · rintro ⟨⟨⟨x, hx⟩, hall⟩, rfl⟩
        refine ⟨x, hx, _, ⟨hall, rfl⟩, ?_⟩
        by_cases htrue : x = .bool true
        · rw [if_pos htrue, if_pos (selects_iff.mpr (htrue ▸ hx))]
          rfl
        · rw [if_neg htrue, if_neg fun hsel => htrue ?_]
          rw [selects_iff, hx] at hsel
          cases hsel
          rfl
  simp only [execFilter, Except.bind_eq_ok, Except.pure_eq_ok, hrecords]
  have hback : ∀ ms : List Node, ResultSet.ofRows (nodeResultSet keys (some v) ns).columns
      ((nodeResultSet keys (some v) ms).records.map (·.values)) = nodeResultSet keys (some v) ms := by
    intro ms
    simp [nodeResultSet, ResultSet.ofRows]
  constructor
  · rintro ⟨kept, ⟨hall, rfl⟩, rfl⟩
    exact ⟨hall, hback _⟩
  · rintro ⟨hall, rfl⟩
    exact ⟨_, ⟨hall, rfl⟩, hback _⟩

/-! ## The two ways to the nodes -/

/-- What the label part of a scan looks at: nothing, the key of the one label, or all of the labels. -/
def Reached : List String → Node → Prop
  | [], _ => True
  | [l], n => FoundUnder l n
  | labels, n => ∀ l ∈ labels, hasLabel n l

theorem hasLabel_iff {n : Node} {l : String} : hasLabel n l ↔ (⟨l⟩ : Label) ∈ n.labels :=
  Std.ExtTreeSet.contains_iff_mem

theorem reached_of_all {labels : List String} {n : Node} (h : labels.all (hasLabel n)) :
    Reached labels n := by
  rw [List.all_eq_true] at h
  match labels with
  | [] => trivial
  | [l] => exact foundUnder_of_mem (hasLabel_iff.mp (h l List.mem_cons_self))
  | _ :: _ :: _ => exact h

/-- A scan finds in order the stored nodes that it reaches. -/
theorem exists_scanWith_inIdOrder {P : Node → Prop} {Q : Edge → Prop} (h : WellIndexed env.rt.bin P Q db)
    (labels : List String) : ∃ ns, scanWith env graphId db labels = .ok ns ∧ InIdOrder ns ∧
      ∀ n, n ∈ ns ↔ HasNode env.rt.bin db graphId n ∧ Reached labels n := by
  match labels with
  | [] =>
    obtain ⟨ns, hns, hordered, hmem⟩ := h.exists_scanNodes_inIdOrder graphId
    exact ⟨ns, hns, hordered, fun n => by simp [hmem, Reached]⟩
  | [l] =>
    obtain ⟨ns, hns, hordered, hmem⟩ := h.exists_scanNodesByLabel_inIdOrder graphId ⟨l⟩
    refine ⟨ns, ?_, hordered, hmem⟩
    rw [scanWith, hns]
    rfl
  | l :: l' :: rest =>
    obtain ⟨ns, hns, hordered, hmem⟩ := h.exists_scanNodesByLabel_inIdOrder graphId ⟨l⟩
    refine ⟨ns.filter fun n => (l :: l' :: rest).all (hasLabel n), ?_, hordered.filter _, fun n => ?_⟩
    · rw [scanWith, hns]
      rfl
    · rw [List.mem_filter, hmem, List.all_eq_true]
      constructor
      · rintro ⟨⟨hn, -⟩, hall⟩
        exact ⟨hn, hall⟩
      · rintro ⟨hn, hall⟩
        exact ⟨⟨hn, foundUnder_of_mem (hasLabel_iff.mp (hall l List.mem_cons_self))⟩, hall⟩

/-- The stored nodes are loaded, and those without the labels are passed over. -/
theorem loadedNodes_eq {labels : List String} {ns : List Node}
    (h : ∀ n ∈ ns, HasNode env.rt.bin db graphId n) :
    loadedNodes env graphId labels (ns.map Node.id) db = ns.filter fun n => labels.all (hasLabel n) := by
  induction ns with
  | nil => rfl
  | cons n ns ih =>
    obtain ⟨hn, hns⟩ := List.forall_mem_cons.mp h
    have hget : StorageEngine.getNode env.rt.bin db graphId n.id = .ok n := hn
    by_cases hlabels : labels.all (hasLabel n)
    · rw [List.map_cons, loadedNodes, List.filterMap_cons_some (b := n) (by rw [hget]; exact if_pos hlabels),
        List.filter_cons, if_pos hlabels]
      exact congrArg (n :: ·) (ih hns)
    · rw [List.map_cons, loadedNodes, List.filterMap_cons_none (by rw [hget]; exact if_neg hlabels),
        List.filter_cons, if_neg hlabels]
      exact ih hns

/-! ## The plan -/

/-- The positions of the equalities on the properties of an index. -/
theorem forall₂_of_coveredBy {eqs : List (String × Expression)} {names : List String} {used : List Nat}
    (h : coveredBy eqs names = some used) :
    List.Forall₂ (fun name i => ∃ val, eqs[i]? = some (name, val)) names used := by
  induction names generalizing used with
  | nil =>
    cases h
    exact .nil
  | cons name names ih =>
    rw [coveredBy, List.mapM_cons] at h
    obtain ⟨i, hi, h⟩ := Option.bind_eq_some_iff.mp h
    obtain ⟨rest, hrest, h⟩ := Option.bind_eq_some_iff.mp h
    cases h
    refine .cons ?_ (ih hrest)
    obtain ⟨hlt, hname, -⟩ := List.findIdx?_eq_some_iff_getElem.mp hi
    exact ⟨(eqs[i]).2, by rw [List.getElem?_eq_getElem hlt, ← beq_iff_eq.mp hname]⟩

/-- The lookup values at the positions of the equalities. -/
def lookupValuesAt (eqs : List (String × Expression)) (used : List Nat) : List Expression :=
  used.filterMap fun i => (eqs[i]?).map (·.2)

/-- The equalities at other positions. -/
def unusedBut (eqs : List (String × Expression)) (used : List Nat) : List (String × Expression) :=
  (eqs.zipIdx.filter fun e => !used.contains e.2).map (·.1)

theorem mem_unusedBut {eqs : List (String × Expression)} {used : List Nat} {e : String × Expression} :
    e ∈ unusedBut eqs used ↔ ∃ i, eqs[i]? = some e ∧ i ∉ used := by
  simp only [unusedBut, List.mem_map, List.mem_filter, List.mem_zipIdx_iff_getElem?, Prod.exists,
    Bool.not_eq_true', List.contains_eq_mem, decide_eq_false_iff_not, exists_and_right, exists_eq_right]

/-- The plan that replaces a filtered scan. -/
theorem exists_of_tryIndexScan {defs : List IndexDefinition} {labels : List String} {v : String}
    {predicate : Expression} {plan : LogicalPlan}
    (h : tryIndexScan defs labels (some v) predicate = some plan) :
    ∃ d ∈ defs, d.entityType = .node ∧ ∃ used, used ≠ [] ∧
      List.Forall₂ (fun name i => ∃ val,
        ((conjuncts predicate).filterMap (servedEq v))[i]? = some (name, val)) d.propertyNames used ∧
      plan = .indexScan d.name labels (some v) d.propertyNames
        (lookupValuesAt ((conjuncts predicate).filterMap (servedEq v)) used)
        (conjunction (remainingParts v predicate
          (unusedBut ((conjuncts predicate).filterMap (servedEq v)) used))) := by
  rw [tryIndexScan, extractEqPredicates_eq] at h
  obtain ⟨d, hd, hplan⟩ := List.exists_of_findSome?_eq_some h
  unfold indexScanFor at hplan
  split at hplan
  · cases hplan
  · next htype =>
    split at hplan
    · cases hplan
    · cases hplan
    · next used hne hused =>
      cases hplan
      exact ⟨d, hd, not_not.mp htype, used, hne, forall₂_of_coveredBy hused, rfl⟩

/-- Lookup values evaluate to the values of their literals. -/
theorem evaluateAll_lookupValues {r : Record} {vals : List Expression}
    (h : ∀ val ∈ vals, isLookupValue (literalValue val)) :
    evaluateAll env r vals = .ok (vals.map literalValue) := by
  induction vals with
  | nil => rfl
  | cons val vals ih =>
    obtain ⟨hval, hvals⟩ := List.forall_mem_cons.mp h
    rw [evaluateAll, evaluate_of_isLookupValue hval, ih hvals]
    rfl

theorem length_lookupValuesAt {eqs : List (String × Expression)} {names : List String} {used : List Nat}
    (h : List.Forall₂ (fun name i => ∃ val, eqs[i]? = some (name, val)) names used) :
    (lookupValuesAt eqs used).length = names.length := by
  induction h with
  | nil => rfl
  | @cons name i names used hi _ ih =>
    obtain ⟨val, hval⟩ := hi
    rw [lookupValuesAt, List.filterMap_cons, hval]
    exact congrArg (· + 1) ih

/-- The node is looked up under the values of the equalities that it meets. -/
theorem indexedValues_eq_iff {d : IndexDefinition} {eqs : List (String × Expression)} {used : List Nat}
    (h : List.Forall₂ (fun name i => ∃ val, eqs[i]? = some (name, val)) d.propertyNames used) {n : Node} :
    indexedValues d n = (lookupValuesAt eqs used).map literalValue ↔
      ∀ i ∈ used, ∀ e, eqs[i]? = some e → HasValue n e := by
  have hgeneral : ∀ {names used}, List.Forall₂ (fun name i => ∃ val, eqs[i]? = some (name, val)) names used →
      (names.map (propertyOrNull n.properties) = (lookupValuesAt eqs used).map literalValue ↔
        ∀ i ∈ used, ∀ e, eqs[i]? = some e → HasValue n e) := by
    intro names used h
    induction h with
    | nil => simp [lookupValuesAt]
    | @cons name i names used hi _ ih =>
      obtain ⟨val, hval⟩ := hi
      have hcons : lookupValuesAt eqs (i :: used) = val :: lookupValuesAt eqs used := by
        simp [lookupValuesAt, hval]
      rw [hcons, List.map_cons, List.map_cons, List.cons.injEq, ih, List.forall_mem_cons, hval]
      simp [HasValue]
  exact hgeneral h

/-- A looked up value is not NULL, so a node that has it has the property. -/
theorem any_contains_of_hasValue {eqs : List (String × Expression)} {names : List String} {used : List Nat}
    (hne : used ≠ []) (h : List.Forall₂ (fun name i => ∃ val, eqs[i]? = some (name, val)) names used)
    (hlookup : ∀ val ∈ lookupValuesAt eqs used, isLookupValue (literalValue val)) {n : Node}
    (hvalues : ∀ i ∈ used, ∀ e, eqs[i]? = some e → HasValue n e) :
    names.any n.properties.contains := by
  cases h with
  | nil => exact absurd rfl hne
  | @cons name i names used hi _ =>
    obtain ⟨val, hval⟩ := hi
    have hlooked : isLookupValue (literalValue val) := by
      refine hlookup val (List.mem_filterMap.mpr ⟨i, List.mem_cons_self, ?_⟩)
      rw [hval]
      rfl
    have hvalue : propertyOrNull n.properties name = literalValue val :=
      hvalues i List.mem_cons_self _ hval
    refine List.any_eq_true.mpr ⟨name, List.mem_cons_self, ?_⟩
    by_contra hnone
    rw [propertyOrNull, Std.ExtTreeMap.getElem?_eq_none fun h => hnone h] at hvalue
    rw [← hvalue] at hlooked
    cases hlooked

/-! ## Agreement -/

/-- A store whose definitions are listed under their names, and whose node indexes have exactly the
entries of the nodes with one of their properties. -/
structure FullyIndexed (env : Env) (graphId : GraphId) (db : Db) (defs : List IndexDefinition) : Prop where
  wellIndexed : WellIndexed env.rt.bin (fun _ => True) (fun _ => True) db
  listed : IndexManager.listIndexes env.rt db graphId = .ok defs
  names : ∀ d ∈ defs, ∀ d' ∈ defs, d'.name = d.name → d' = d
  own : ∀ d ∈ defs, d.graphId = graphId
  complete : ∀ d ∈ defs, d.entityType = .node →
    Complete env.rt db d fun n => d.propertyNames.any n.properties.contains

/-- No stored node that satisfies the predicate is found under the key of the one label of the scan
without having it. -/
def LabelsApart (env : Env) (graphId : GraphId) (db : Db) (labels : List String) (v : String)
    (predicate : Expression) : Prop :=
  ∀ l, labels = [l] → ∀ n, HasNode env.rt.bin db graphId n → selects env v predicate n →
    FoundUnder l n → (⟨l⟩ : Label) ∈ n.labels

/-- The property names of the stored nodes are no other columns. -/
def DataTidy (env : Env) (graphId : GraphId) (db : Db) (v : String) : Prop :=
  ∀ n, HasNode env.rt.bin db graphId n → ∀ k ∈ n.properties, TidyName v k

variable {defs : List IndexDefinition} {labels : List String} {v : String} {predicate : Expression}

/-- What the hooks keep up is complete once no covered node lacks its entry. -/
theorem Maintained.fullyIndexed (h : Maintained env.rt db)
    (hfull : ∀ d n, Listed env.rt db d → d.graphId = graphId → HasNode env.rt.bin db graphId n →
      covers d n → (db .propIndex)[ownKey env.rt d n]? ≠ none) :
    ∃ defs, FullyIndexed env graphId db defs ∧
      ∀ d, d ∈ defs ↔ Listed env.rt db d ∧ d.graphId = graphId := by
  obtain ⟨defs, hdefs, hmem⟩ := h.exists_listIndexes graphId
  refine ⟨defs, ⟨h.wellIndexed, hdefs, fun d hd d' hd' hname => ?_, fun d hd => ((hmem d).mp hd).2,
    fun d hd htype b hb => ?_⟩, hmem⟩
  · obtain ⟨hlisted, hg⟩ := (hmem d).mp hd
    obtain ⟨hlisted', hg'⟩ := (hmem d').mp hd'
    exact hlisted'.eq hlisted (hg'.trans hg.symm) hname
  · obtain ⟨hlisted, rfl⟩ := (hmem d).mp hd
    have hcovers : ∀ n, covers d n ↔ d.propertyNames.any n.properties.contains := by
      intro n
      simp [covers, htype]
    rw [Option.isSome_iff_ne_none]
    constructor
    · intro hk
      rcases h.keys_cases hk with ⟨g, name, rfl⟩ | ⟨d', n, he, rfl⟩
      · exact absurd hb (not_namedPrefix_metaKey env.rt d.graphId g d.name name)
      · obtain ⟨hg, hhash⟩ := namedPrefix_ownKey.mp hb
        obtain rfl := hlisted.eq he.listed hg (h.names d d' hlisted he.listed hg hhash)
        exact ⟨n, ⟨he.stored, (hcovers n).mp he.covers⟩, rfl⟩
    · rintro ⟨n, ⟨hn, hany⟩, rfl⟩
      exact hfull d n hlisted rfl hn ((hcovers n).mpr hany)

/-- A definition is found by its name. -/
theorem FullyIndexed.find?_eq (h : FullyIndexed env graphId db defs) {d : IndexDefinition}
    (hd : d ∈ defs) : defs.find? (fun x => x.name == d.name) = some d := by
  obtain ⟨d', hd'⟩ := Option.isSome_iff_exists.mp
    (List.find?_isSome (p := fun x : IndexDefinition => x.name == d.name) |>.mpr
      ⟨d, hd, beq_self_eq_true d.name⟩)
  have hname : (d'.name == d.name) = true := List.find?_some (p := fun x : IndexDefinition => x.name == d.name) hd'
  rw [hd', h.names d hd d' (List.mem_of_find?_eq_some hd') (beq_iff_eq.mp hname)]

/-- On the rows of stored nodes a predicate is evaluated as on the nodes alone. -/
theorem evaluate_scanRow (htidy : DataTidy env graphId db v) {ns : List Node}
    (hns : ∀ n ∈ ns, HasNode env.rt.bin db graphId n) (draw : Draw) {e : Expression}
    (he : IsPredicate v e) {n : Node} (hn : n ∈ ns) :
    evaluate env ⟨nodeColumns (draw.order (keySet (ns.map (·.properties)))) (some v),
      nodeRow (draw.order (keySet (ns.map (·.properties)))) (some v) n⟩ e =
        evaluate env (boundTo v n) e := by
  refine evaluate_nodeRow he (fun k hk => ?_) fun k hk => ?_
  · obtain ⟨m, hm, hkm⟩ := exists_of_mem_order hk
    exact htidy m (hns m hm) k hkm
  · exact (draw.perm _).mem_iff.mpr (mem_keySet.mpr ⟨n.properties, List.mem_map_of_mem hn, hk⟩)

/-- What a filtered scan finds: it succeeds when the predicate can be read on all nodes that it reaches. -/
theorem exists_filteredScan (hstore : FullyIndexed env graphId db defs)
    (htidy : DataTidy env graphId db v) (hpred : IsPredicate v predicate) (labels : List String)
    (graph : Option String) (ω : Stream' Draw) :
    ∃ keys ns, InIdOrder ns ∧ (∀ n, n ∈ ns ↔ HasNode env.rt.bin db graphId n ∧ Reached labels n) ∧
      ∀ rs, resultOf env graphId (.filter (.scan labels graph (some v)) predicate) ω db = .ok rs ↔
        (∀ n ∈ ns, ∃ x, evaluate env (boundTo v n) predicate = .ok x) ∧
          rs = nodeResultSet keys (some v) (ns.filter (selects env v predicate)) := by
  obtain ⟨ns, hns, hordered, hmem⟩ := @exists_scanWith_inIdOrder env graphId db _ _ hstore.wellIndexed labels
  have hstored : ∀ n ∈ ns, HasNode env.rt.bin db graphId n := fun n hn => ((hmem n).mp hn).1
  set keys := ω.head.order (keySet (ns.map (·.properties))) with hkeys
  have hinput : resultOf env graphId (.scan labels graph (some v)) ω db =
      .ok (nodeResultSet keys (some v) ns) := by
    rw [resultOf, executeNode, result_execScan, scanResult, hns]
    rfl
  refine ⟨keys, ns, hordered, hmem, fun rs => ?_⟩
  have hfilter := fun rs => @execFilter_nodeResultSet env v keys ns predicate rs fun n hn =>
    evaluate_scanRow htidy hstored ω.head hpred hn
  rw [← hfilter rs]
  constructor
  · intro h
    obtain ⟨input, hscan, h⟩ := Process.result_bind_eq_ok.mp h
    cases hinput.symm.trans hscan
    exact h
  · intro h
    exact Process.result_bind_eq_ok.mpr ⟨_, hinput, h⟩

/-- What is left of the filter, applied to the rows of nodes on which its parts can be read. -/
theorem exists_remaining {keys : List String} {parts : List Expression} {ms : List Node}
    (hrows : ∀ e, IsPredicate v e → ∀ n ∈ ms, evaluate env
      ⟨nodeColumns keys (some v), nodeRow keys (some v) n⟩ e = evaluate env (boundTo v n) e)
    (hparts : ∀ c ∈ parts, IsPredicate v c)
    (hguarded : ∀ n ∈ ms, ShortCircuit.Guarded (evaluate env (boundTo v n)) (.bool false) parts) :
    ∃ ns : List Node, (match conjunction parts with
        | some rest => execFilter env (nodeResultSet keys (some v) ms) rest
        | none => pure (nodeResultSet keys (some v) ms)) = .ok (nodeResultSet keys (some v) ns) ∧
      ns.Sublist ms ∧
      ∀ n, n ∈ ns ↔ n ∈ ms ∧ ∀ c ∈ parts, evaluate env (boundTo v n) c = .ok (.bool true) := by
  cases hrest : conjunction parts with
  | none =>
    obtain rfl : parts = [] := by
      cases parts with
      | nil => rfl
      | cons => cases hrest
    exact ⟨ms, rfl, List.Sublist.refl ms, by simp⟩
  | some rest =>
    have htree := fun n => @conjoins_conjunction env (boundTo v n) parts rest hrest
    have hfilter := fun rs => @execFilter_nodeResultSet env v keys ms rest rs
      (hrows rest (isPredicate_conjunction hparts hrest))
    refine ⟨ms.filter (selects env v rest), (hfilter _).mpr ⟨fun n hn => ?_, rfl⟩, List.filter_sublist,
      fun n => ?_⟩
    · exact (htree n).guarded.mp (hguarded n hn)
    · rw [List.mem_filter, selects_iff, (htree n).eq_true]

/-- What the index scan in its place finds. -/
theorem exists_indexScan (hstore : FullyIndexed env graphId db defs) (htidy : DataTidy env graphId db v)
    (hpred : Indexable v predicate) {plan : LogicalPlan}
    (hplan : tryIndexScan defs labels (some v) predicate = some plan)
    (hok : ∀ n, HasNode env.rt.bin db graphId n → Reached labels n →
      ∃ x, evaluate env (boundTo v n) predicate = .ok x) (ω : Stream' Draw) :
    ∃ keys ns, resultOf env graphId plan ω db = .ok (nodeResultSet keys (some v) ns) ∧ InIdOrder ns ∧
      ∀ n, n ∈ ns ↔ HasNode env.rt.bin db graphId n ∧ labels.all (hasLabel n) ∧
        selects env v predicate n := by
  obtain ⟨d, hd, htype, used, hne, hused, rfl⟩ := exists_of_tryIndexScan hplan
  set eqs := (conjuncts predicate).filterMap (servedEq v) with heqs
  have hlookup : ∀ val ∈ lookupValuesAt eqs used, isLookupValue (literalValue val) := by
    intro val hval
    obtain ⟨i, -, hi⟩ := List.mem_filterMap.mp hval
    obtain ⟨e, he, rfl⟩ := Option.map_eq_some_iff.mp hi
    obtain ⟨c, hc, hce⟩ := List.mem_filterMap.mp (List.mem_of_getElem? he)
    exact hpred.literals c hc e hce
  have hcovered : ∀ n, indexedValues d n = (lookupValuesAt eqs used).map literalValue →
      d.propertyNames.any n.properties.contains := fun n hn =>
    any_contains_of_hasValue hne hused hlookup ((indexedValues_eq_iff hused).mp hn)
  -- the index finds the stored nodes that have the values of the served equalities
  obtain ⟨ms, hms, hordered, hmem⟩ := (hstore.complete d hd htype).exists_lookup
    ((lookupValuesAt eqs used).map literalValue) (by rw [List.length_map, length_lookupValuesAt hused])
    (List.forall_mem_map.mpr fun val hval => isKeyValue_of_isLookupValue (hlookup val hval))
  rw [hstore.own d hd] at hmem
  have hstored : ∀ n ∈ ms, HasNode env.rt.bin db graphId n := fun n hn => ((hmem n).mp hn).1.1
  have hnodes : indexScanNodes env graphId d.name labels (lookupValuesAt eqs used) db =
      .ok (ms.filter fun n => labels.all (hasLabel n)) := by
    simp only [indexScanNodes, hstore.listed, evaluateAll_lookupValues hlookup, hms, Except.mapError,
      Except.ok_bind, hstore.find?_eq hd, loadedNodes_eq hstored, pure, Except.pure]
  have hunused : ∀ e ∈ unusedBut eqs used, e ∈ eqs := by
    intro e he
    obtain ⟨i, hi, -⟩ := mem_unusedBut.mp he
    exact List.mem_of_getElem? hi
  have hanswers : ∀ n ∈ ms.filter fun n => labels.all (hasLabel n), ∃ x,
      evaluate env (boundTo v n) predicate = .ok x ∧
      ShortCircuit.Guarded (evaluate env (boundTo v n)) (.bool false)
        (remainingParts v predicate (unusedBut eqs used)) ∧
      ((∀ c ∈ remainingParts v predicate (unusedBut eqs used),
        evaluate env (boundTo v n) c = .ok (.bool true)) ↔ x = .bool true) := by
    intro n hn
    obtain ⟨hn, hlabels⟩ := List.mem_filter.mp hn
    obtain ⟨x, hx⟩ := hok n (hstored n hn) (reached_of_all hlabels)
    have hvalues := (indexedValues_eq_iff hused).mp ((hmem n).mp hn).2
    refine ⟨x, hx, remaining_answers hpred hunused (fun e he => ?_) hx⟩
    · obtain ⟨i, hi⟩ := List.mem_iff_getElem?.mp he
      by_cases hiu : i ∈ used
      · exact .inr (hvalues i hiu e hi)
      · exact .inl (mem_unusedBut.mpr ⟨i, hi, hiu⟩)
  set keys := ω.head.order (keySet ((ms.filter fun n => labels.all (hasLabel n)).map (·.properties)))
    with hkeys
  obtain ⟨ns, hns, hsub, hmem'⟩ := @exists_remaining env v keys _ _ (fun e he n hn =>
      evaluate_scanRow htidy (fun n hn => hstored n (List.mem_of_mem_filter hn)) ω.head he hn)
    (isPredicate_remainingParts hpred hunused) fun n hn => by
      obtain ⟨x, -, hguarded, -⟩ := hanswers n hn
      exact hguarded
  refine ⟨keys, ns, ?_, (hordered.filter _).sublist hsub, fun n => ?_⟩
  · rw [resultOf, executeNode, result_execIndexScan, indexScanResult, hnodes]
    exact hns
  · rw [hmem', selects_iff]
    constructor
    · rintro ⟨hn, hall⟩
      obtain ⟨x, hx, -, htrue⟩ := hanswers n hn
      obtain ⟨hn, hlabels⟩ := List.mem_filter.mp hn
      exact ⟨hstored n hn, hlabels, htrue.mp hall ▸ hx⟩
    · rintro ⟨hn, hlabels, hsel⟩
      have hvalues : ∀ i ∈ used, ∀ e, eqs[i]? = some e → HasValue n e := fun i _ e he =>
        hasValue_of_true hpred hsel (List.mem_of_getElem? he)
      have hindexed := (indexedValues_eq_iff hused).mpr hvalues
      have hfound := (hmem n).mpr ⟨⟨hn, hcovered n hindexed⟩, hindexed⟩
      have hin : n ∈ ms.filter fun n => labels.all (hasLabel n) := List.mem_filter.mpr ⟨hfound, hlabels⟩
      obtain ⟨x, hx, -, htrue⟩ := hanswers n hin
      cases hsel.symm.trans hx
      exact ⟨hin, htrue.mpr rfl⟩

/-- **The index rewrite is correct when the index is complete**, up to labels that are told apart by
their first 65535 bytes only. -/
theorem indexScan_agrees_iff (hstore : FullyIndexed env graphId db defs)
    (htidy : DataTidy env graphId db v) (hpred : Indexable v predicate) {plan : LogicalPlan}
    (hplan : tryIndexScan defs labels (some v) predicate = some plan) {graph : Option String}
    {ω : Stream' Draw} {rs : ResultSet}
    (hscan : resultOf env graphId (.filter (.scan labels graph (some v)) predicate) ω db = .ok rs)
    (ω' : Stream' Draw) :
    ∃ keys ns keys' ns', rs = nodeResultSet keys (some v) ns ∧
      resultOf env graphId plan ω' db = .ok (nodeResultSet keys' (some v) ns') ∧
      (∀ n, n ∈ ns ∨ n ∈ ns' → HasNode env.rt.bin db graphId n) ∧
      (ns' = ns ↔ LabelsApart env graphId db labels v predicate) := by
  obtain ⟨keys, ns, hordered, hmem, hresult⟩ :=
    exists_filteredScan hstore htidy hpred.isPredicate labels graph ω
  obtain ⟨hok, rfl⟩ := (hresult rs).mp hscan
  obtain ⟨keys', ns', hresult', hordered', hmem'⟩ := exists_indexScan hstore htidy hpred hplan
    (fun n hn hreached => hok n ((hmem n).mpr ⟨hn, hreached⟩)) ω'
  refine ⟨keys, _, keys', ns', rfl, hresult', fun n hn => ?_, ?_⟩
  · rcases hn with hn | hn
    · exact ((hmem n).mp (List.mem_of_mem_filter hn)).1
    · exact ((hmem' n).mp hn).1
  · rw [hordered'.eq_iff (hordered.filter _)]
    simp only [List.mem_filter, hmem, hmem', and_assoc]
    constructor
    · rintro hsame l rfl n hn hsel hfound
      have hall := ((hsame n).mpr ⟨hn, hfound, hsel⟩).2.1
      exact hasLabel_iff.mp (by simpa using hall)
    · intro hapart n
      refine and_congr_right fun hn => and_congr_left fun hsel => ?_
      refine ⟨reached_of_all, fun hreached => ?_⟩
      rcases labels with _ | ⟨l, _ | ⟨l', ls⟩⟩
      · rfl
      · simpa using hasLabel_iff.mpr (hapart l rfl n hn hsel hreached)
      · exact List.all_eq_true.mpr hreached

/-! ## One indexed person -/

section Labelled

variable (label : String)

/-- A person under some label, with the property `p`. -/
def labelled : Node := { withP with labels := {⟨label⟩} }

def labelledEnv : Env := sampleEnv (.table sampleRuntime.formats [labelled label] [] [byP])

/-- `CREATE INDEX i ON (p)`. -/
def indexedStore : Db := exec (IndexManager.createIndex (labelledEnv label).rt byP) Db.empty

/-- The node is stored behind it. -/
def unlistedStore : Db := exec (StorageEngine.putNode (labelledEnv label).rt.bin (labelled label)) (indexedStore label)

/-- And put into the index, as `INSERT` does. -/
def labelledStore : Db := exec (IndexManager.indexNode (labelledEnv label).rt byP (labelled label)) (unlistedStore label)

theorem roundTrips_labelled : (labelledEnv label).rt.bin.node.RoundTrips ∧
    (labelledEnv label).rt.bin.indexDefinition.RoundTrips :=
  ⟨Codec.ofTable_roundTrips (List.nodup_singleton _), Codec.ofTable_roundTrips (List.nodup_singleton _)⟩

theorem covers_labelled : covers byP (labelled label) := by
  simp [covers, byP, labelled, withP]

theorem keyValues_labelled : indexedValues byP (labelled label) = [.integer 1] := by
  simp [indexedValues, byP, labelled, withP, Node.getProperty]

theorem indexedStore_eq : indexedStore label = Db.empty.apply
    (.put .propIndex (IndexManager.metaKey sampleGraph "i") (bincodeIndexDefinition byP)) := by
  have hvalue : ((Journaled.read fun _ => serializeValue (labelledEnv label).rt.bin.indexDefinition byP :
      StorageM Bytes) Db.empty).result = .ok (bincodeIndexDefinition byP) := by
    show serializeValue (labelledEnv label).rt.bin.indexDefinition byP = .ok (bincodeIndexDefinition byP)
    refine serializeValue_eq_ok.mpr ?_
    simp [labelledEnv, sampleEnv, Bincode.table, Codec.ofTable]
  exact exec_bind_ok hvalue

theorem listed_indexedStore {d : IndexDefinition} :
    Listed (labelledEnv label).rt (indexedStore label) d ↔ d = byP := by
  have hdecode : (labelledEnv label).rt.bin.indexDefinition.deserialize (bincodeIndexDefinition byP) = .ok byP := by
    simp [labelledEnv, sampleEnv, Bincode.table, Codec.ofTable]
  rw [Listed, indexedStore_eq]
  simp only [Db.getElem?_apply, WriteOp.cf, WriteOp.key, WriteOp.result, true_and]
  constructor
  · rintro ⟨v, hv, hd⟩
    split at hv
    · cases hv
      cases hdecode.symm.trans hd
      rfl
    · simp [Db.empty] at hv
  · rintro rfl
    exact ⟨_, if_pos rfl, hdecode⟩

theorem nodes_indexedStore : indexedStore label .nodes = Db.empty .nodes :=
  exec_of_onlyIn (createIndex_onlyIn _ byP) (by decide) _

theorem maintained_indexedStore : Maintained (labelledEnv label).rt (indexedStore label) := by
  refine maintained_empty.createIndex (roundTrips_labelled label).2 fun d hd => ?_
  obtain ⟨v, hv, -⟩ := hd
  simp [Db.empty] at hv

theorem result_putNode_labelled : (StorageEngine.putNode (labelledEnv label).rt.bin (labelled label)
    (indexedStore label)).result = .ok () := by
  have hstale : ((Journaled.read fun db => StorageEngine.staleLabels (labelledEnv label).rt.bin db
      (labelled label) : StorageM (List Label)) (indexedStore label)).result = .ok [] := by
    show StorageEngine.staleLabels (labelledEnv label).rt.bin (indexedStore label) (labelled label) = _
    rw [StorageEngine.staleLabels, nodes_indexedStore]
    simp [Db.empty]
  have hvalue : ((Journaled.read fun _ => serializeValue (labelledEnv label).rt.bin.node (labelled label) :
      StorageM Bytes) (indexedStore label)).result = .ok (bincodeNode sampleRuntime.formats (labelled label)) := by
    show serializeValue _ (labelled label) = _
    refine serializeValue_eq_ok.mpr ?_
    simp [labelledEnv, sampleEnv, Bincode.table, Codec.ofTable]
  rw [StorageEngine.putNode, result_bind_ok hstale]
  exact result_bind_ok hvalue

theorem hasNode_unlistedStore {g : GraphId} {n : Node} :
    HasNode (labelledEnv label).rt.bin (unlistedStore label) g n ↔ g = sampleGraph ∧ n = labelled label := by
  have hnone : ¬ HasNode (labelledEnv label).rt.bin (indexedStore label) g n := by
    rw [HasNode, StorageEngine.getNode, nodes_indexedStore]
    simp [Db.empty]
  rw [unlistedStore, hasNode_putNode (roundTrips_labelled label).1 (maintained_indexedStore label).wellIndexed
    trivial (result_putNode_labelled label)]
  simp [hnone, labelled, withP, person]

theorem maintained_unlistedStore : Maintained (labelledEnv label).rt (unlistedStore label) := by
  refine (maintained_indexedStore label).putNode (roundTrips_labelled label).1 fun n hn => ?_
  rw [HasNode, StorageEngine.getNode, nodes_indexedStore] at hn
  simp [Db.empty] at hn

theorem propIndex_unlistedStore : unlistedStore label .propIndex = indexedStore label .propIndex := by
  rcases putNode_cases (labelledEnv label).rt.bin (labelled label) (indexedStore label) with
    ⟨_, -, hexec⟩ | ⟨stale, value, -, -, -, hexec⟩
  · rw [unlistedStore, hexec]
  · rw [unlistedStore, hexec]
    exact putNodeBatch_other _ _ stale value (by decide) (by decide)

theorem listed_unlistedStore {d : IndexDefinition} :
    Listed (labelledEnv label).rt (unlistedStore label) d ↔ d = byP := by
  rw [← listed_indexedStore label]
  refine listed_congr fun g name => ?_
  rw [propIndex_unlistedStore]

theorem isEntry_labelled : IsEntry (labelledEnv label).rt (unlistedStore label) byP (labelled label) where
  listed := (listed_unlistedStore label).mpr rfl
  covers := covers_labelled label
  stored := (hasNode_unlistedStore label).mpr ⟨rfl, rfl⟩

/-- The node is the only one that is stored, and the index has its entry. -/
theorem fullyIndexed_labelledStore : (∃ rest,
      FullyIndexed (labelledEnv label) sampleGraph (labelledStore label) (byP :: rest)) ∧
    ∀ n, HasNode (labelledEnv label).rt.bin (labelledStore label) sampleGraph n ↔ n = labelled label := by
  obtain ⟨hmaintained, hlisted, hnodes⟩ :=
    (maintained_unlistedStore label).indexNode (isEntry_labelled label)
  have hstored : ∀ n, HasNode (labelledEnv label).rt.bin (labelledStore label) sampleGraph n ↔
      n = labelled label := by
    intro n
    rw [labelledStore, hasNode_congr hnodes, hasNode_unlistedStore]
    simp
  have hdefs : ∀ d, Listed (labelledEnv label).rt (labelledStore label) d ↔ d = byP := fun d =>
    (hlisted d).trans (listed_unlistedStore label)
  have hentry : (labelledStore label .propIndex)[ownKey (labelledEnv label).rt byP
      (labelled label)]? ≠ none := by
    rcases indexNode_cases (labelledEnv label).rt byP (labelled label) (unlistedStore label) with
      ⟨hunique, -⟩ | ⟨-, -, hexec⟩
    · cases hunique
    · rw [labelledStore, hexec, Db.getElem?_apply]
      simp [WriteOp.cf, WriteOp.key, WriteOp.result]
  obtain ⟨defs, hfull, hmem⟩ := @Maintained.fullyIndexed (labelledEnv label) sampleGraph
    (labelledStore label) hmaintained fun d n hd _ hn _ => by
      obtain rfl := (hdefs d).mp hd
      obtain rfl := (hstored n).mp hn
      exact hentry
  refine ⟨?_, hstored⟩
  cases defs with
  | nil => exact absurd ((hmem byP).mpr ⟨(hdefs byP).mpr rfl, rfl⟩) List.not_mem_nil
  | cons d rest =>
    obtain rfl := (hdefs d).mp ((hmem d).mp List.mem_cons_self).1
    exact ⟨rest, hfull⟩

/-- `n.p = 1`. -/
def askP : Expression := rebuildEqPredicate (some "n") "p" (.literal (.integer 1))

theorem tidyName_p : TidyName "n" "p" := ⟨by decide, by decide, by decide⟩

theorem indexable_askP : Indexable "n" askP where
  isPredicate := .binary .eq (.property tidyName_p) (.literal _)
  literals c hc e he := by
    obtain rfl : c = askP := List.mem_singleton.mp hc
    cases he
    rfl

theorem dataTidy_labelledStore : DataTidy (labelledEnv label) sampleGraph (labelledStore label) "n" := by
  intro n hn k hk
  obtain rfl := ((fullyIndexed_labelledStore label).2 n).mp hn
  obtain rfl : "p" = k := by simpa [labelled, withP, Std.ExtTreeMap.mem_ofList] using hk
  exact tidyName_p

theorem evaluate_askP : evaluate (labelledEnv label) (boundTo "n" (labelled label)) askP = .ok (.bool true) := by
  have hvalue : HasValue (labelled label) ("p", .literal (.integer 1)) := by
    simp [HasValue, propertyOrNull, labelled, withP, literalValue]
  rw [askP, evaluate_rebuildEqPredicate (e := ("p", .literal (.integer 1))) tidyName_p rfl, decide_eq_true hvalue]

/-- A filtered scan of the one node. -/
theorem exists_askedScan {l : String} (hfound : FoundUnder l (labelled label)) :
    ∃ keys, resultOf (labelledEnv label) sampleGraph (.filter (.scan [l] none (some "n")) askP) sampleDraws
      (labelledStore label) = .ok (nodeResultSet keys (some "n") [labelled label]) := by
  obtain ⟨⟨rest, hfull⟩, hstored⟩ := fullyIndexed_labelledStore label
  obtain ⟨keys, ns, hordered, hmem, hresult⟩ := exists_filteredScan hfull (dataTidy_labelledStore label)
    indexable_askP.isPredicate [l] none sampleDraws
  obtain rfl : ns = [labelled label] := by
    refine (hordered.eq_iff (List.pairwise_singleton _ _)).mpr fun n => ?_
    rw [hmem, hstored, List.mem_singleton]
    constructor
    · exact fun h => h.1
    · rintro rfl
      exact ⟨rfl, hfound⟩
  refine ⟨keys, (hresult _).mpr ⟨fun n hn => ?_, ?_⟩⟩
  · obtain rfl := List.mem_singleton.mp hn
    exact ⟨_, evaluate_askP label⟩
  · rw [List.filter_cons, if_pos (selects_iff.mpr (evaluate_askP label))]
    rfl

/-- `p` of the scanned node is looked up. -/
def askedPlan (l : String) : LogicalPlan :=
  .indexScan "i" [l] (some "n") ["p"] [.literal (.integer 1)] none

theorem tryIndexScan_askP (rest : List IndexDefinition) (l : String) :
    tryIndexScan (byP :: rest) [l] (some "n") askP = some (askedPlan l) := rfl

/-- `MATCH (n:Person) WHERE n.p = 1` over the indexed person. -/
theorem indexScan_agrees_iff_person :
    ∃ rs keys ns keys' ns', rs = nodeResultSet keys (some "n") ns ∧
      resultOf (labelledEnv "Person") sampleGraph (askedPlan "Person") sampleDraws (labelledStore "Person") =
        .ok (nodeResultSet keys' (some "n") ns') ∧
      (∀ n, n ∈ ns ∨ n ∈ ns' → HasNode (labelledEnv "Person").rt.bin (labelledStore "Person") sampleGraph n) ∧
      (ns' = ns ↔ LabelsApart (labelledEnv "Person") sampleGraph (labelledStore "Person") ["Person"] "n" askP) := by
  obtain ⟨⟨rest, hfull⟩, -⟩ := fullyIndexed_labelledStore "Person"
  obtain ⟨keys, hscan⟩ := exists_askedScan "Person" (foundUnder_of_mem (l := "Person") (by simp [labelled]))
  exact ⟨_, indexScan_agrees_iff hfull (dataTidy_labelledStore "Person") indexable_askP
    (tryIndexScan_askP rest "Person") hscan sampleDraws⟩

end Labelled

/-! ## A label that is cut -/

section Cut

theorem length_utf8_replicate (n : Nat) : (utf8 (String.ofList (List.replicate n 'a'))).length = n := by
  induction n with
  | zero => rfl
  | succ n ih =>
    rw [List.replicate_succ, ← List.singleton_append, String.ofList_append, utf8_append, List.length_append, ih]
    show 1 + n = n + 1
    omega

/-- Behind 65535 bytes nothing of a label is in its key. -/
theorem encodeLabel_append {s : String} (hs : (utf8 s).length = 65535) (x y : String) :
    encodeLabel (s ++ x) = encodeLabel (s ++ y) := by
  have hcut : ∀ x, encodeLabel (s ++ x) = BigEndian.beBytes 2 65535 ++ utf8 s := by
    intro x
    have hmin : min (utf8 (s ++ x)).length 65535 = 65535 := by
      rw [utf8_append, List.length_append, hs]
      omega
    have htake : (utf8 (s ++ x)).take 65535 = utf8 s := by
      rw [utf8_append]
      exact List.take_left' hs
    simp only [encodeLabel, hmin, htake]
  rw [hcut, hcut]

/-- A text of 65535 bytes. -/
@[irreducible] def longText : String := String.ofList (List.replicate 65535 'a')

theorem length_longText : (utf8 longText).length = 65535 := by
  unfold longText
  exact length_utf8_replicate 65535

/-- The scan of one label finds a node under another one, which has the same 65535 bytes in front; the
index scan in its place does not. -/
theorem not_indexScan_agrees_longText :
    (∃ keys, resultOf (labelledEnv (longText ++ "b")) sampleGraph
      (.filter (.scan [longText ++ "a"] none (some "n")) askP) sampleDraws
      (labelledStore (longText ++ "b")) =
        .ok (nodeResultSet keys (some "n") [labelled (longText ++ "b")])) ∧
    ∃ rest keys, FullyIndexed (labelledEnv (longText ++ "b")) sampleGraph
        (labelledStore (longText ++ "b")) (byP :: rest) ∧
      tryIndexScan (byP :: rest) [longText ++ "a"] (some "n") askP =
        some (askedPlan (longText ++ "a")) ∧
      resultOf (labelledEnv (longText ++ "b")) sampleGraph (askedPlan (longText ++ "a")) sampleDraws
        (labelledStore (longText ++ "b")) = .ok (nodeResultSet keys (some "n") []) := by
  have hfound : FoundUnder (longText ++ "a") (labelled (longText ++ "b")) :=
    ⟨⟨longText ++ "b"⟩, by simp [labelled], encodeLabel_append length_longText "b" "a"⟩
  have hother : ¬ hasLabel (labelled (longText ++ "b")) (longText ++ "a") := by
    rw [hasLabel_iff]
    intro hmem
    simp [labelled] at hmem
  refine ⟨exists_askedScan (longText ++ "b") hfound, ?_⟩
  obtain ⟨⟨rest, hfull⟩, hstored⟩ := fullyIndexed_labelledStore (longText ++ "b")
  obtain ⟨keys, ns, hresult, -, hmem⟩ := exists_indexScan hfull (dataTidy_labelledStore _) indexable_askP
    (tryIndexScan_askP rest (longText ++ "a")) (fun n hn _ => by
      obtain rfl := (hstored n).mp hn
      exact ⟨_, evaluate_askP _⟩) sampleDraws
  obtain rfl : ns = [] := by
    refine List.eq_nil_iff_forall_not_mem.mpr fun n hn => ?_
    obtain ⟨hn, hall, -⟩ := (hmem n).mp hn
    obtain rfl := (hstored n).mp hn
    exact hother (by simpa using hall)
  exact ⟨rest, keys, hfull, tryIndexScan_askP rest _, hresult⟩

end Cut

end Synaptica.Exec
