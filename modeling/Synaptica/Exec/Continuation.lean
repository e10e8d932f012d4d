import Synaptica.Exec.Paths

/-!
# MATCH after WITH

A `MATCH` whose first node pattern names a variable takes the rows so far as they are and expands them.
The expand step starts from the hidden column `__node_id`, which every projection carries along, and
not from the variable: the rows are those of the variable exactly when, in each row, both name the same
node or neither of the two has an edge to follow.
-/

namespace Synaptica.Exec

open Gql Storage

/-! ## The two statements -/

/-- `MATCH (v)-[e:label]->(c)`. -/
def matchFrom (v e label c : String) : GqlStatement :=
  .matchStmt ⟨none, [⟨[.node ⟨some v, [], []⟩, .edge ⟨some e, .outgoing, [label], []⟩,
    .node ⟨some c, [], []⟩]⟩], none⟩

/-- On top of the rows so far it is one expand step. -/
theorem planStatement_matchFrom (v e label c : String) (plan : LogicalPlan) :
    QueryPlanner.planStatement (matchFrom v e label c) (some plan) =
      .ok (.expand plan label .outgoing [] (some e) (some c)) := rfl

section Continues

variable (bin : Bincode) (db : Db) (g : GraphId)

/-- The edge has the label and leaves the node that `v` is bound to in the row. -/
def Leaves (label v : String) (r : Record) (f : Edge) : Prop :=
  HasEdge bin db g f ∧ f.label = ⟨label⟩ ∧
    (r.get v).bind Value.asNodeId = some f.source.uuid.toString

/-- The row `o` is `r` with `e` bound to the edge and `c` to its target; the hidden id may move. -/
structure Extends (e c : String) (columns : List String) (r : Record) (f : Edge) (o : Record) : Prop where
  kept : ∀ name ∈ columns, name ≠ "__node_id" → o.get name = r.get name
  edge : o.get e = some (edgeValue f)
  target : ∃ n, HasNode bin db g n ∧ n.id = f.target ∧ o.get c = some (nodeValue n)

/-- The rows `out` are the rows of `rs`, each extended by every edge with the label that leaves the node
bound to `v`, once. -/
def ExtendsEach (v e label c : String) (rs out : ResultSet) : Prop :=
  ∃ pairs : List (Nat × Edge),
    pairs.Enumerates (fun p => ∃ r, rs.records[p.1]? = some r ∧ Leaves bin db g label v r p.2) ∧
      List.Forall₂ (fun p o => ∃ r, rs.records[p.1]? = some r ∧ Extends bin db g e c rs.columns r p.2 o)
        pairs out.records

end Continues

variable (env : Env) (graphId : GraphId)

/-- The hidden id of the row is that of the node bound to `v`, whose edges have stored targets; or
neither of the two nodes has an edge to follow. -/
def StartsAt (db : Db) (label v : String) (r : Record) : Prop :=
  ∃ s h, r.get "__node_id" = some (.string s) ∧ env.parseUuid s = .ok h ∧
    (((r.get v).bind Value.asNodeId = some h.toString ∧
        ∀ f, Leaves env.rt.bin db graphId label v r f → ∃ n, HasNode env.rt.bin db graphId n ∧ n.id = f.target) ∨
      ((∀ f, ¬ Leaves env.rt.bin db graphId label v r f) ∧
        ∀ hop, ¬ Hop env.rt.bin db graphId .outgoing (some ⟨label⟩) [] ⟨h⟩ hop))

/-! ## The expand step -/

section Step

variable {env graphId} {db : Db} {label v e c : String} {rs : ResultSet}

/-- Names that the expand step can give to new columns. -/
structure NewNames (columns : List String) (e c : String) : Prop where
  edge : isIdentifier e ∧ e ∉ columns ∧ e ≠ "__node_id"
  target : isIdentifier c ∧ c ∉ columns ∧ c ≠ "__node_id"
  ne : e ≠ c

/-- An extended row keeps the columns of the row and binds the two new names. -/
theorem get_expandRecord_new {columns edgeKeys targetKeys : List String} {r : Record}
    {hop : Edge × Node} (hnames : NewNames columns e c) (hbelow : r.columns = columns)
    (hwidth : r.values.length = columns.length) (hid : "__node_id" ∈ columns) :
    (∀ name ∈ columns, name ≠ "__node_id" →
        (expandRecord columns edgeKeys targetKeys (some e) (some c) (.ofHop r.values hop)).get name =
          r.get name) ∧
      (expandRecord columns edgeKeys targetKeys (some e) (some c) (.ofHop r.values hop)).get e =
        some (edgeValue hop.1) ∧
      (expandRecord columns edgeKeys targetKeys (some e) (some c) (.ofHop r.values hop)).get c =
        some (nodeValue hop.2) := by
  have hsource : (⟨columns, r.values⟩ : Record) = r := by rw [← hbelow]
  have hget : ∀ name, name ≠ "__node_id" →
      (expandRecord columns edgeKeys targetKeys (some e) (some c) (.ofHop r.values hop)).get name =
        ((r.get name).or ((blockRow edgeKeys (some e) (edgeValue hop.1)
          (propertyOrNull hop.1.properties)).get name)).or
          ((blockRow targetKeys (some c) (nodeValue hop.2) (propertyOrNull hop.2.properties)).get name) := by
    intro name hname
    have hlength : (ExpandRow.ofHop r.values hop).sourceValues.length = columns.length := hwidth
    rw [get_expandRecord hlength hid, if_neg fun hand => hname hand.2, get_extended hlength]
    show (((⟨columns, r.values⟩ : Record).get name).or _).or _ = _
    rw [hsource]
    rfl
  have hnone : ∀ name, name ∉ columns → r.get name = none := by
    intro name hname
    rw [← hsource]
    exact (Record.get_eq_none_iff hwidth).mpr hname
  refine ⟨fun name hmem hname => ?_, ?_, ?_⟩
  · have hsome : r.get name ≠ none := by
      rw [← hsource]
      exact fun h => (Record.get_eq_none_iff hwidth).mp h hmem
    obtain ⟨x, hx⟩ := Option.ne_none_iff_exists'.mp hsome
    rw [hget name hname, hx]
    rfl
  · rw [hget e hnames.edge.2.2, hnone e hnames.edge.2.1, get_blockRow_self]
    rfl
  · have hedge : (blockRow edgeKeys (some e) (edgeValue hop.1)
        (propertyOrNull hop.1.properties)).get c = none := by
      refine get_blockRow_of_dotFree (dotFree_of_isIdentifier hnames.target.1) fun x hx => ?_
      cases hx
      exact hnames.ne
    rw [hget c hnames.target.2.2, hnone c hnames.target.2.1, hedge, get_blockRow_self]
    rfl

/-- What follows an edge from the row's hidden id. -/
def HopAt (env : Env) (graphId : GraphId) (db : Db) (label : String) (rs : ResultSet) (i : Nat)
    (hop : Edge × Node) : Prop :=
  ∃ r s h, rs.records[i]? = some r ∧ r.get "__node_id" = some (.string s) ∧ env.parseUuid s = .ok h ∧
    Hop env.rt.bin db graphId .outgoing (some ⟨label⟩) [] ⟨h⟩ hop

/-- Every row carries a hidden id that can be read. -/
def HasIds (env : Env) (rs : ResultSet) : Prop :=
  ∀ r ∈ rs.records, ∃ s h, r.get "__node_id" = some (.string s) ∧ env.parseUuid s = .ok h

theorem isEmpty_of_isIdentifier (h : isIdentifier label) : label.isEmpty = false := by
  cases hempty : label.isEmpty with
  | false => rfl
  | true =>
    rw [String.isEmpty_iff.mp hempty] at h
    exact absurd h (by decide)

/-- The rows of the step, as they come out of `expand_records`. -/
theorem expandResult_eq_ok {draws : Draw × Draw} {out : ResultSet} (hlabel : isIdentifier label) :
    expandResult env graphId rs label .outgoing [] (some e) (some c) db draws = .ok out ↔
      ∃ rows, expandedRows env graphId .outgoing (some ⟨label⟩) [] db rs.records = .ok rows ∧
        expandResultSet rs.columns (draws.2.order (keySet (rows.map (·.edge.properties))))
          (draws.1.order (keySet (rows.map (·.target.properties)))) (some e) (some c) rows = out := by
  rw [expandResult, isEmpty_of_isIdentifier hlabel]
  simp only [Except.bind_eq_ok, Except.pure_eq_ok, Bool.false_eq_true, if_false]

/-- With readable ids the step answers with one row for each hop from a row's hidden id. -/
theorem exists_expanded (hdb : Consistent env.rt.bin db) (hlabel : isIdentifier label)
    (hfits : (Label.mk label).Fits) (hrect : rs.Rectangular) (hnames : NewNames rs.columns e c)
    (hids : HasIds env rs) (draws : Draw × Draw) :
    ∃ (out : ResultSet) (pairs : List (Nat × Edge × Node)),
      expandResult env graphId rs label .outgoing [] (some e) (some c) db draws = .ok out ∧
      pairs.Enumerates (fun p => HopAt env graphId db label rs p.1 p.2) ∧
      List.Forall₂ (fun p o => ∃ r, rs.records[p.1]? = some r ∧
        (∀ name ∈ rs.columns, name ≠ "__node_id" → o.get name = r.get name) ∧
        o.get e = some (edgeValue p.2.1) ∧ o.get c = some (nodeValue p.2.2)) pairs out.records := by
  have hhops : ∀ (i : Nat) (r : Record), rs.records[i]? = some r →
      ∃ hs, hopsOf env graphId .outgoing (some ⟨label⟩) [] r db = .ok hs ∧
        hs.Enumerates (HopAt env graphId db label rs i) := by
    intro i r hr
    obtain ⟨s, h, hid, hparse⟩ := hids r (List.mem_of_getElem? hr)
    obtain ⟨hs, hhs, hmem⟩ := @exists_hopsOf env graphId db hdb ⟨h⟩ .outgoing (some ⟨label⟩)
      (by simpa using hfits) [] r s hid hparse
    refine ⟨hs, hhs, hmem.congr fun hop => ⟨fun hhop => ⟨r, s, h, hr, hid, hparse, hhop⟩, ?_⟩⟩
    rintro ⟨r', s', h', hr', hid', hparse', hhop⟩
    rw [hr] at hr'
    cases hr'
    rw [hid] at hid'
    cases hid'
    rw [hparse] at hparse'
    cases hparse'
    exact hhop
  have hindexed : List.Forall₂ (fun (i : Nat) r => rs.records[i]? = some r)
      (List.range rs.records.length) rs.records :=
    List.forall₂_iff_get.mpr ⟨by simp, fun i _ hi => by simp⟩
  obtain ⟨rows, pairs, hrows, hpairs, hlaid⟩ := exists_expandedRows hhops hindexed List.nodup_range
  refine ⟨_, pairs, (expandResult_eq_ok hlabel).mpr ⟨rows, hrows, rfl⟩, hpairs.congr fun p => ?_, ?_⟩
  · refine and_iff_right_of_imp fun ⟨r, _, _, hr, _⟩ => ?_
    exact List.mem_range.mpr (List.getElem?_eq_some_iff.mp hr).1
  · rw [records_expandResultSet, List.forall₂_map_right_iff]
    refine hlaid.imp fun p row hp => ?_
    obtain ⟨r, hmem, hr, rfl⟩ := hp
    obtain ⟨hbelow, hwidth⟩ := hrect r hmem
    obtain ⟨s, -, hid, -⟩ := hids r hmem
    have hcolumn : "__node_id" ∈ rs.columns := by
      by_contra hnot
      have hnone : (⟨rs.columns, r.values⟩ : Record).get "__node_id" = none :=
        (Record.get_eq_none_iff hwidth).mpr hnot
      rw [← hbelow, hid] at hnone
      cases hnone
    obtain ⟨hkept, hedge, htarget⟩ := get_expandRecord_new hnames hbelow hwidth hcolumn
    exact ⟨r, hr, hkept, hedge, htarget⟩

/-- The step succeeds only when every row carries a hidden id that can be read. -/
theorem hasIds_of_expandResult {draws : Draw × Draw} {out : ResultSet} (hlabel : isIdentifier label)
    (h : expandResult env graphId rs label .outgoing [] (some e) (some c) db draws = .ok out) :
    HasIds env rs := by
  obtain ⟨rows, hrows, -⟩ := (expandResult_eq_ok hlabel).mp h
  intro r hr
  obtain ⟨hops, hhops⟩ := (expandedRows_eq_ok hrows).1 r hr
  exact exists_id_of_hopsOf hhops

end Step

/-! ## From the hidden id or from the variable -/

section Start

variable {env graphId} {db : Db} {label v e c : String} {rs : ResultSet}

/-- Identifiers are told apart by their texts. -/
theorem asNodeId_eq_iff {x : Option Value} {u w : Uuid} (h : x.bind Value.asNodeId = some u.toString) :
    x.bind Value.asNodeId = some w.toString ↔ u = w := by
  rw [h, Option.some_inj]
  exact Uuid.toString_injective.eq_iff

theorem edgeValue_inj {bin : Bincode} {f f' : Edge} (hf : HasEdge bin db graphId f)
    (hf' : HasEdge bin db graphId f') (h : edgeValue f = edgeValue f') : f = f' := by
  injection h with hid
  have huuid := Uuid.toString_injective hid
  apply hf.eq_of_id hf'
  show (⟨f.id.uuid⟩ : EdgeId) = ⟨f'.id.uuid⟩
  rw [huuid]

/-- The id a row carries is read in one way only. -/
theorem HopAt.hop {r : Record} {i : Nat} {s : String} {h : Uuid} {hop : Edge × Node}
    (hhop : HopAt env graphId db label rs i hop) (hr : rs.records[i]? = some r)
    (hid : r.get "__node_id" = some (.string s)) (hparse : env.parseUuid s = .ok h) :
    Hop env.rt.bin db graphId .outgoing (some ⟨label⟩) [] ⟨h⟩ hop := by
  obtain ⟨r', s', h', hr', hid', hparse', hhop⟩ := hhop
  rw [hr] at hr'
  cases hr'
  rw [hid] at hid'
  cases hid'
  rw [hparse] at hparse'
  cases hparse'
  exact hhop

/-- When every row starts at the node bound to `v`, hops are edges that leave it. -/
theorem exists_hopAt_iff {i : Nat} {f : Edge}
    (hstarts : ∀ r ∈ rs.records, StartsAt env graphId db label v r) :
    (∃ n, HopAt env graphId db label rs i (f, n)) ↔
      ∃ r, rs.records[i]? = some r ∧ Leaves env.rt.bin db graphId label v r f := by
  constructor
  · rintro ⟨n, hhop⟩
    obtain ⟨r, s, h, hr, hid, hparse, -⟩ := id hhop
    obtain ⟨s', h', hid', hparse', hcases⟩ := hstarts r (List.mem_of_getElem? hr)
    have hhop' := hhop.hop hr hid' hparse'
    rcases hcases with ⟨hbound, -⟩ | ⟨-, hnone⟩
    · refine ⟨r, hr, hhop'.edge, by simpa [matchesLabel] using hhop'.label, ?_⟩
      have hsource : f.source = ⟨h'⟩ := hhop'.leads.1
      rw [hsource]
      exact hbound
    · exact absurd hhop' (hnone _)
  · rintro ⟨r, hr, hleaves⟩
    obtain ⟨s, h, hid, hparse, ⟨hbound, htargets⟩ | ⟨hnone, -⟩⟩ := hstarts r (List.mem_of_getElem? hr)
    · obtain ⟨n, hn, htarget⟩ := htargets f hleaves
      have hsource : h = f.source.uuid := (asNodeId_eq_iff hbound).mp hleaves.2.2
      refine ⟨n, r, s, h, hr, hid, hparse, hleaves.1, ?_, ⟨?_, htarget.symm⟩, hn, .inl rfl⟩
      · simp [matchesLabel, hleaves.2.1]
      · rw [hsource]
    · exact absurd hleaves (hnone f)

/-- If the rows are right, an edge that is followed from a hidden id leaves the node bound to `v`. -/
theorem leaves_of_extendsEach (hrect : rs.Rectangular) {out : ResultSet}
    {hops : List (Nat × Edge × Node)}
    (hhops : hops.Enumerates fun p => HopAt env graphId db label rs p.1 p.2)
    (hlaid : List.Forall₂ (fun p o => ∃ r, rs.records[p.1]? = some r ∧
      (∀ name ∈ rs.columns, name ≠ "__node_id" → o.get name = r.get name) ∧
      o.get e = some (edgeValue p.2.1) ∧ o.get c = some (nodeValue p.2.2)) hops out.records)
    (hids : HasIds env rs) {pairs : List (Nat × Edge)}
    (hpairs : pairs.Enumerates fun p => ∃ r, rs.records[p.1]? = some r ∧
      Leaves env.rt.bin db graphId label v r p.2)
    (hextends : List.Forall₂ (fun p o => ∃ r, rs.records[p.1]? = some r ∧
      Extends env.rt.bin db graphId e c rs.columns r p.2 o) pairs out.records)
    {i : Nat} {hop : Edge × Node} (hhop : HopAt env graphId db label rs i hop) :
    (i, hop.1) ∈ pairs := by
  obtain ⟨⟨i', f⟩, hmem, o, ⟨r, hr, hkept, hedge, -⟩, r', hr', hextended⟩ :=
    (hlaid.common hextends).exists_of_mem ((hhops.2 (i, hop)).mpr hhop)
  obtain ⟨r'', hr'', hleaves⟩ := (hpairs.2 _).mp hmem
  rw [hr'] at hr''
  cases hr''
  have hstored : HasEdge env.rt.bin db graphId hop.1 := by
    obtain ⟨_, _, _, _, _, _, hhop⟩ := hhop
    exact hhop.edge
  -- the row names the edge and the node it left
  have hsame : f = hop.1 := by
    apply edgeValue_inj hleaves.1 hstored
    rw [hextended.edge] at hedge
    exact Option.some_injective _ hedge
  obtain ⟨x, hx, hnode⟩ := Option.bind_eq_some_iff.mp hleaves.2.2
  obtain ⟨hbelow, hwidth⟩ := hrect r' (List.mem_of_getElem? hr')
  have hcolumn : v ∈ rs.columns := by
    by_contra hnot
    have hnone : (⟨rs.columns, r'.values⟩ : Record).get v = none :=
      (Record.get_eq_none_iff hwidth).mpr hnot
    rw [← hbelow, hx] at hnone
    cases hnone
  have hne : v ≠ "__node_id" := by
    rintro rfl
    obtain ⟨s, h, hid, -⟩ := hids r' (List.mem_of_getElem? hr')
    rw [hx] at hid
    cases hid
    cases hnode
  have hbound : r.get v = r'.get v := by
    rw [← hkept v hcolumn hne, ← hextended.kept v hcolumn hne]
  rw [hpairs.2]
  refine ⟨r, hr, hsame ▸ hleaves.1, hsame ▸ hleaves.2.1, ?_⟩
  rw [hbound, ← hsame]
  exact hleaves.2.2

/-- An edge leads to one node. -/
theorem nodup_hopEdges {hops : List (Nat × Edge × Node)}
    (hhops : hops.Enumerates fun p => HopAt env graphId db label rs p.1 p.2) :
    (hops.map fun p => (p.1, p.2.1)).Nodup := by
  refine hhops.1.map_on fun p hp q hq heq => ?_
  obtain ⟨i, f, n⟩ := p
  obtain ⟨j, f', n'⟩ := q
  simp only [Prod.mk.injEq] at heq
  obtain ⟨rfl, rfl⟩ := heq
  obtain ⟨_, _, _, _, _, _, hhop⟩ := (hhops.2 _).mp hp
  obtain ⟨_, _, _, _, _, _, hhop'⟩ := (hhops.2 _).mp hq
  have hid : n.id = n'.id := hhop.leads.2.symm.trans hhop'.leads.2
  have hnode : n = n' := hhop.node.eq_of_id hhop'.node hid
  exact congrArg (fun x => (i, f, x)) hnode

/-- **The expand step continues from `v`** exactly when every row starts at the node bound to `v`. -/
theorem extendsEach_iff (hdb : Consistent env.rt.bin db) (hlabel : isIdentifier label)
    (hfits : (Label.mk label).Fits) (hrect : rs.Rectangular) (hnames : NewNames rs.columns e c)
    (draws : Draw × Draw) :
    (∃ out, expandResult env graphId rs label .outgoing [] (some e) (some c) db draws = .ok out ∧
      ExtendsEach env.rt.bin db graphId v e label c rs out) ↔
      ∀ r ∈ rs.records, StartsAt env graphId db label v r := by
  constructor
  · rintro ⟨out, hout, pairs, hpairs, hextends⟩
    have hids := hasIds_of_expandResult hlabel hout
    obtain ⟨out', hops, hout', hhops, hlaid⟩ := exists_expanded hdb hlabel hfits hrect hnames hids draws
    rw [hout] at hout'
    cases hout'
    -- the hops are some of the pairs, and there are as many of them
    have hsub : (hops.map fun p => (p.1, p.2.1)) ⊆ pairs := by
      intro q hq
      obtain ⟨p, hp, rfl⟩ := List.mem_map.mp hq
      exact leaves_of_extendsEach hrect hhops hlaid hids hpairs hextends ((hhops.2 p).mp hp)
    have hlength : pairs.length ≤ (hops.map fun p => (p.1, p.2.1)).length := by
      rw [List.length_map, hlaid.length_eq, hextends.length_eq]
    have hperm := (List.subperm_of_subset (nodup_hopEdges hhops) hsub).perm_of_length_le hlength
    intro r hr
    obtain ⟨i, hi⟩ := List.mem_iff_getElem?.mp hr
    obtain ⟨s, h, hid, hparse⟩ := hids r hr
    -- an edge that leaves the node is followed by the step
    have hfollowed : ∀ f, Leaves env.rt.bin db graphId label v r f →
        ∃ n, Hop env.rt.bin db graphId .outgoing (some ⟨label⟩) [] ⟨h⟩ (f, n) := by
      intro f hleaves
      have hpair : (i, f) ∈ pairs := (hpairs.2 _).mpr ⟨r, hi, hleaves⟩
      obtain ⟨⟨j, f', n⟩, hmem, heq⟩ := List.mem_map.mp (hperm.mem_iff.mpr hpair)
      obtain ⟨rfl, rfl⟩ := Prod.mk.inj heq
      exact ⟨n, ((hhops.2 _).mp hmem).hop hi hid hparse⟩
    refine ⟨s, h, hid, hparse, ?_⟩
    by_cases hany : ∃ hop, Hop env.rt.bin db graphId .outgoing (some ⟨label⟩) [] ⟨h⟩ hop
    · obtain ⟨hop, hhop⟩ := hany
      have hpair := leaves_of_extendsEach hrect hhops hlaid hids hpairs hextends
        ⟨r, s, h, hi, hid, hparse, hhop⟩
      obtain ⟨r', hr', -, -, hsource⟩ := (hpairs.2 _).mp hpair
      rw [hi] at hr'
      cases hr'
      refine .inl ⟨?_, fun f hleaves => ?_⟩
      · rw [hsource, hhop.leads.1]
      · obtain ⟨n, hn⟩ := hfollowed f hleaves
        exact ⟨n, hn.node, hn.leads.2.symm⟩
    · rw [not_exists] at hany
      refine .inr ⟨fun f hleaves => ?_, hany⟩
      obtain ⟨n, hn⟩ := hfollowed f hleaves
      exact hany _ hn
  · intro hstarts
    have hids : HasIds env rs := fun r hr => by
      obtain ⟨s, h, hid, hparse, -⟩ := hstarts r hr
      exact ⟨s, h, hid, hparse⟩
    obtain ⟨out, hops, hout, hhops, hlaid⟩ := exists_expanded hdb hlabel hfits hrect hnames hids draws
    refine ⟨out, hout, hops.map fun p => (p.1, p.2.1), ⟨nodup_hopEdges hhops, fun q => ?_⟩, ?_⟩
    · rw [List.mem_map]
      refine Iff.trans ?_ (exists_hopAt_iff hstarts)
      constructor
      · rintro ⟨p, hp, rfl⟩
        exact ⟨p.2.2, (hhops.2 p).mp hp⟩
      · rintro ⟨n, hhop⟩
        exact ⟨(q.1, q.2, n), (hhops.2 _).mpr hhop, rfl⟩
    · rw [List.forall₂_map_left_iff]
      refine ((List.forall₂_and_left _ _).mpr ⟨fun p hp => (hhops.2 p).mp hp, hlaid⟩).imp ?_
      rintro p o ⟨⟨_, _, _, _, _, _, hhop⟩, r, hr, hkept, hedge, htarget⟩
      exact ⟨r, hr, hkept, hedge, p.2.2, hhop.node, hhop.leads.2.symm, htarget⟩

end Start

/-! ## Pipelines -/

section Pipeline

variable (S : LogicalPlan) (w : WithStatement) (v e label c : String)

/-- The rows of `S WITH items MATCH (v)-[e:label]->(c)` are the rows `rs` of `S WITH items`, each extended
by every edge with the label that leaves the node bound to `v`. -/
def Continues (ω : Stream' Draw) (db : Db) (rs : ResultSet) : Prop :=
  ∃ plan out, QueryPlanner.planStatement (matchFrom v e label c) (some (QueryPlanner.planWith w (some S))) =
      .ok plan ∧
    ((executeNode env graphId plan).run ω db).result = .ok out ∧
    ExtendsEach env.rt.bin ((executeNode env graphId plan).run ω db).state graphId v e label c rs out

variable {S w v e label c env graphId} {ω : Stream' Draw} {db : Db} {rs : ResultSet}

/-- **MATCH after WITH continues from the named variable** exactly when every projected row starts at
the node bound to it. -/
theorem continues_iff
    (hrun : ((executeNode env graphId (QueryPlanner.planWith w (some S))).run ω db).result = .ok rs)
    (hdb : Consistent env.rt.bin
      ((executeNode env graphId (QueryPlanner.planWith w (some S))).run ω db).state)
    (hlabel : isIdentifier label) (hfits : (Label.mk label).Fits) (hnames : NewNames rs.columns e c) :
    Continues env graphId S w v e label c ω db rs ↔
      ∀ r ∈ rs.records, StartsAt env graphId
        ((executeNode env graphId (QueryPlanner.planWith w (some S))).run ω db).state label v r := by
  have hrect := answersRows_executeNode env graphId _ ω db rs hrun
  generalize hplan : QueryPlanner.planWith w (some S) = P at hrun hdb ⊢
  generalize hrest : ((executeNode env graphId P).run ω db).rest = ω'
  generalize hstate : ((executeNode env graphId P).run ω db).state = db' at hdb ⊢
  have hresult : ((executeNode env graphId
      (.expand P label .outgoing [] (some e) (some c))).run ω db).result =
        expandResult env graphId rs label .outgoing [] (some e) (some c) db' (ω'.head, ω'.tail.head) := by
    rw [executeNode, Process.run_bind, Process.Ended.andThen, hrun, hrest, hstate]
    exact result_execExpand env graphId _ _ _ _ _ _ ω' db'
  have hend : ((executeNode env graphId
      (.expand P label .outgoing [] (some e) (some c))).run ω db).state = db' := by
    rw [executeNode, Process.run_bind, Process.Ended.andThen, hrun, hrest, hstate]
    exact (reads_execExpand env graphId _ _ _ _ _ _).state_eq ω' db'
  rw [← extendsEach_iff hdb hlabel hfits hrect hnames (ω'.head, ω'.tail.head), ← hresult, Continues, hplan]
  constructor
  · rintro ⟨plan, out, hmatch, hout, hextends⟩
    rw [planStatement_matchFrom] at hmatch
    cases hmatch
    rw [hend] at hextends
    exact ⟨out, hout, hextends⟩
  · rintro ⟨out, hout, hextends⟩
    refine ⟨_, out, planStatement_matchFrom v e label c P, hout, ?_⟩
    rwa [hend]

end Pipeline

/-! ## Whom a person knows -/

section Friends

/-- `WITH a`. -/
def withA : WithStatement := ⟨false, [⟨.identifier "a", none⟩], none, none, none⟩

/-- `(a)`. -/
def onlyA : Chain := ⟨bareNode (some "a"), []⟩

/-- `(a)-[:KNOWS]->(b)`. -/
def aKnowsB : Chain := ⟨bareNode (some "a"), [(knowsEdge, bareNode (some "b"))]⟩

/-- A row that is left of a person by `WITH a`: the node, and the hidden columns. -/
def rowOfA (a hidden : Node) : Record :=
  ⟨["a", "__node_id", "__labels"],
    [nodeValue a, .string hidden.id.uuid.toString, .list [.string "Person"]]⟩

/-- The rows of `MATCH (a) WITH a`. -/
def everyone : ResultSet := ⟨["a", "__node_id", "__labels"], [rowOfA person person, rowOfA friend friend]⟩

/-- The row of `MATCH (a)-[:KNOWS]->(b) WITH a`: the hidden id is that of `b`. -/
def knowing : ResultSet := ⟨["a", "__node_id", "__labels"], [rowOfA person friend]⟩

theorem run_everyone : ((executeNode (sampleEnv friendsBincode) sampleGraph
    (QueryPlanner.planWith withA (some (chainPlan none onlyA)))).run sampleDraws friends).result =
      .ok everyone := by
  decide +kernel

theorem run_knowing : ((executeNode (sampleEnv friendsBincode) sampleGraph
    (QueryPlanner.planWith withA (some (chainPlan none aKnowsB)))).run sampleDraws friends).result =
      .ok knowing := by
  decide +kernel

/-- Pipelines that only read leave the store as it is. -/
theorem state_withA (c : Chain) : ((executeNode (sampleEnv friendsBincode) sampleGraph
    (QueryPlanner.planWith withA (some (chainPlan none c)))).run sampleDraws friends).state = friends := by
  apply (reads_executeNode _ _ _).state_eq
  exact readOnly_chainPlan none c

theorem newNames_e_c : NewNames ["a", "__node_id", "__labels"] "e" "c" :=
  ⟨by decide, by decide, by decide⟩

theorem knows_fits : (Label.mk "KNOWS").Fits := by decide

/-- `MATCH (a) WITH a MATCH (a)-[e:KNOWS]->(c)` follows the edges of `a`. -/
theorem continues_everyone : Continues (sampleEnv friendsBincode) sampleGraph (chainPlan none onlyA) withA
    "a" "e" "KNOWS" "c" sampleDraws friends everyone := by
  refine (continues_iff run_everyone ?_ (by decide) knows_fits newNames_e_c).mpr ?_
  · rw [state_withA]
    exact friends_consistent
  · rw [state_withA]
    have hstart : ∀ n : Node, StartsAt (sampleEnv friendsBincode) sampleGraph friends "KNOWS" "a"
        (rowOfA n n) := by
      intro n
      refine ⟨_, n.id.uuid, rfl, parseUuid_sampleEnv _ _, .inl ⟨rfl, fun f hf => ?_⟩⟩
      rw [eq_of_hasEdge_friends hf.1]
      have hfriend : HasNode friendsBincode friends sampleGraph friend := by decide
      exact ⟨friend, hfriend, rfl⟩
    intro r hr
    rcases List.mem_pair.mp hr with rfl | rfl
    · exact hstart person
    · exact hstart friend

/-- `MATCH (a)-[:KNOWS]->(b) WITH a MATCH (a)-[e:KNOWS]->(c)` follows the edges of `b` instead. -/
theorem not_continues_knowing :
    ((executeNode (sampleEnv friendsBincode) sampleGraph
      (QueryPlanner.planWith withA (some (chainPlan none aKnowsB)))).run sampleDraws friends).result =
        .ok knowing ∧
    ¬ Continues (sampleEnv friendsBincode) sampleGraph (chainPlan none aKnowsB) withA
      "a" "e" "KNOWS" "c" sampleDraws friends knowing := by
  refine ⟨run_knowing, ?_⟩
  rintro ⟨plan, out, hplan, hrun, pairs, hpairs, hextends⟩
  rw [planStatement_matchFrom] at hplan
  cases hplan
  have hnone : ((executeNode (sampleEnv friendsBincode) sampleGraph
      (.expand (QueryPlanner.planWith withA (some (chainPlan none aKnowsB))) "KNOWS" .outgoing []
        (some "e") (some "c"))).run sampleDraws friends).result.map (fun rs => rs.records.length) = .ok 0 := by
    decide +kernel
  rw [hrun] at hnone
  have hlength : out.records.length = 0 := by
    injection hnone
  rw [← hextends.length_eq, List.length_eq_zero_iff] at hlength
  -- the edge of the person is missing
  have hstate : ((executeNode (sampleEnv friendsBincode) sampleGraph
      (.expand (QueryPlanner.planWith withA (some (chainPlan none aKnowsB))) "KNOWS" .outgoing []
        (some "e") (some "c"))).run sampleDraws friends).state = friends := by
    apply (reads_executeNode _ _ _).state_eq
    exact readOnly_chainPlan none aKnowsB
  have hmem := (hpairs.2 (0, befriends)).mpr ⟨rowOfA person friend, rfl, by
    rw [hstate]
    exact ⟨by decide, rfl, rfl⟩⟩
  rw [hlength] at hmem
  cases hmem

end Friends

end Synaptica.Exec
