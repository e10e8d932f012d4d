import Synaptica.Exec.Distinct
import Synaptica.Exec.ReadOnly
import Synaptica.Exec.Rows
import Synaptica.Gql.PlanShape
import Synaptica.Storage.Bincode

/-!
# `ORDER BY`

The planner puts the sort below the projection, where the matched rows still are, and replaces an alias by the
expression it names. What comes above the sort keeps its order, all but the aggregation: that answers the
groups in the order of their keys.
-/

namespace Synaptica.Exec

open Gql Storage

/-! ## The order that is asked for -/

/-- The smaller of two integers, or of two strings, comes first. -/
def ValueBefore : Value → Value → Prop
  | .integer i, .integer j => i < j
  | .string s, .string t => s < t
  | _, _ => False

/-- Which of two values comes first in a direction. -/
def ComesBefore : SortDirection → Value → Value → Prop
  | .asc, v, w => ValueBefore v w
  | .desc, v, w => ValueBefore w v

/-- The lexicographic order by some keys: the first one at which the two differ decides. -/
def InOrder {κ α : Type} (direction : κ → SortDirection) (value : κ → α → Value) (a b : α) : List κ → Prop
  | [] => True
  | k :: keys => ComesBefore (direction k) (value k a) (value k b) ∨
      value k a = value k b ∧ InOrder direction value a b keys

theorem ValueBefore.trans {u v w : Value} (huv : ValueBefore u v) (hvw : ValueBefore v w) :
    ValueBefore u w := by
  cases v with
  | integer j =>
    cases u <;> try exact huv.elim
    cases w <;> try exact hvw.elim
    exact Int64.lt_trans huv hvw
  | string t =>
    cases u <;> try exact huv.elim
    cases w <;> try exact hvw.elim
    exact String.lt_trans huv hvw
  | _ => cases u <;> exact huv.elim

theorem ComesBefore.trans {direction : SortDirection} {u v w : Value} (huv : ComesBefore direction u v)
    (hvw : ComesBefore direction v w) : ComesBefore direction u w := by
  cases direction with
  | asc => exact ValueBefore.trans huv hvw
  | desc => exact ValueBefore.trans hvw huv

section InOrder

variable {κ κ' α β : Type} {direction : κ → SortDirection} {value : κ → α → Value}

theorem InOrder.trans {a b c : α} {keys : List κ} (hab : InOrder direction value a b keys)
    (hbc : InOrder direction value b c keys) : InOrder direction value a c keys := by
  induction keys with
  | nil => trivial
  | cons k keys ih =>
    rcases hab with hab | ⟨hab, hab'⟩
    · rcases hbc with hbc | ⟨hbc, -⟩
      · exact .inl (hab.trans hbc)
      · exact .inl (hbc ▸ hab)
    · rcases hbc with hbc | ⟨hbc, hbc'⟩
      · exact .inl (hab ▸ hbc)
      · exact .inr ⟨hab.trans hbc, ih hab' hbc'⟩

/-- Only the directions and the values count. -/
theorem InOrder.of_map {direction' : κ' → SortDirection} {value' : κ' → β → Value} {f : κ → κ'} {a b : α}
    {a' b' : β} {keys : List κ} (hdirection : ∀ k ∈ keys, direction' (f k) = direction k)
    (ha : ∀ k ∈ keys, value' (f k) a' = value k a) (hb : ∀ k ∈ keys, value' (f k) b' = value k b)
    (h : InOrder direction' value' a' b' (keys.map f)) : InOrder direction value a b keys := by
  induction keys with
  | nil => trivial
  | cons k keys ih =>
    rw [List.map_cons, InOrder, hdirection k List.mem_cons_self, ha k List.mem_cons_self,
      hb k List.mem_cons_self] at h
    refine h.imp_right fun hrest => ⟨hrest.1, ih ?_ ?_ ?_ hrest.2⟩
    · exact fun k hk => hdirection k (List.mem_cons_of_mem _ hk)
    · exact fun k hk => ha k (List.mem_cons_of_mem _ hk)
    · exact fun k hk => hb k (List.mem_cons_of_mem _ hk)

end InOrder

/-! ## The sort -/

variable (env : Env)

/-- An expression has an integer on each of the rows, or it has a string on each. -/
def OneType (records : List Record) (e : Expression) : Prop :=
  (∀ r ∈ records, ∃ i, evaluate env r e = .ok (.integer i)) ∨
    ∀ r ∈ records, ∃ s, evaluate env r e = .ok (.string s)

/-- The value of a sort key on a row. -/
def sortValue (key : Expression × SortDirection) (r : Record) : Value :=
  (evaluate env r key.1).toOption.getD .null

variable {env}

theorem sortValue_of_ok {key : Expression × SortDirection} {r : Record} {v : Value}
    (h : evaluate env r key.1 = .ok v) : sortValue env key r = v := by
  rw [sortValue, h]
  rfl

/-- On two values of one type, the comparison answers which one comes first. -/
theorem cmpValues_spec {v w : Value} (h : (∃ i j, v = .integer i ∧ w = .integer j) ∨
    ∃ s t, v = .string s ∧ w = .string t) :
    (cmpValues v w = .lt ∧ ValueBefore v w) ∨ (cmpValues v w = .eq ∧ v = w) ∨
      (cmpValues v w = .gt ∧ ValueBefore w v) := by
  rcases h with ⟨i, j, rfl, rfl⟩ | ⟨s, t, rfl, rfl⟩
  · cases hcmp : compare i j with
    | lt => exact .inl ⟨hcmp, Std.compare_eq_lt.mp hcmp⟩
    | eq => exact .inr (.inl ⟨hcmp, congrArg _ (Std.LawfulEqOrd.compare_eq_iff_eq.mp hcmp)⟩)
    | gt => exact .inr (.inr ⟨hcmp, Std.compare_eq_gt.mp hcmp⟩)
  · cases hcmp : compare s t with
    | lt => exact .inl ⟨hcmp, compareOfLessAndEq_eq_lt.mp hcmp⟩
    | eq => exact .inr (.inl ⟨hcmp, congrArg _ (Std.LawfulEqOrd.compare_eq_iff_eq.mp hcmp)⟩)
    | gt =>
      have hswap : compare t s = .lt := Std.OrientedCmp.gt_iff_lt.mp hcmp
      exact .inr (.inr ⟨hcmp, compareOfLessAndEq_eq_lt.mp hswap⟩)

/-- **One comparison** of the sort: it succeeds, and a record that is not less comes behind. -/
theorem compareRecords_spec {records : List Record} {keys : List (Expression × SortDirection)}
    (hkeys : ∀ k ∈ keys, OneType env records k.1) {a b : Record} (ha : a ∈ records) (hb : b ∈ records) :
    ∃ ord, compareRecords env a b keys = .ok ord ∧
      (ord = .lt → InOrder Prod.snd (sortValue env) a b keys) ∧
      (ord ≠ .lt → InOrder Prod.snd (sortValue env) b a keys) := by
  induction keys with
  | nil => exact ⟨.eq, rfl, fun _ => trivial, fun _ => trivial⟩
  | cons key keys ih =>
    obtain ⟨ord, hord, hlt, hge⟩ := ih fun k hk => hkeys k (List.mem_cons_of_mem _ hk)
    obtain ⟨expr, dir⟩ := key
    obtain ⟨va, vb, hva, hvb, htypes⟩ : ∃ va vb, evaluate env a expr = .ok va ∧ evaluate env b expr = .ok vb ∧
        ((∃ i j, va = .integer i ∧ vb = .integer j) ∨ ∃ s t, va = .string s ∧ vb = .string t) := by
      rcases hkeys _ List.mem_cons_self with h | h
      · obtain ⟨i, hi⟩ := h a ha
        obtain ⟨j, hj⟩ := h b hb
        exact ⟨_, _, hi, hj, .inl ⟨i, j, rfl, rfl⟩⟩
      · obtain ⟨s, hs⟩ := h a ha
        obtain ⟨t, ht⟩ := h b hb
        exact ⟨_, _, hs, ht, .inr ⟨s, t, rfl, rfl⟩⟩
    have hsa : sortValue env (expr, dir) a = va := sortValue_of_ok hva
    have hsb : sortValue env (expr, dir) b = vb := sortValue_of_ok hvb
    rw [compareRecords, hva, Except.ok_bind, hvb, Except.ok_bind]
    simp only [InOrder, hsa, hsb]
    rcases cmpValues_spec htypes with ⟨hcmp, hbefore⟩ | ⟨hcmp, heq⟩ | ⟨hcmp, hbefore⟩
    · rw [hcmp]
      cases dir with
      | asc => exact ⟨.lt, rfl, fun _ => .inl hbefore, fun h => absurd rfl h⟩
      | desc => exact ⟨.gt, rfl, fun h => (by cases h), fun _ => .inl hbefore⟩
    · rw [hcmp]
      exact ⟨ord, hord, fun h => .inr ⟨heq, hlt h⟩, fun h => .inr ⟨heq.symm, hge h⟩⟩
    · rw [hcmp]
      cases dir with
      | asc => exact ⟨.gt, rfl, fun h => (by cases h), fun _ => .inl hbefore⟩
      | desc => exact ⟨.lt, rfl, fun _ => .inl hbefore, fun h => absurd rfl h⟩

/-- **One insertion** keeps the rows in order, which are held from the last one to the first. -/
theorem insertTail_spec {records : List Record} {keys : List (Expression × SortDirection)}
    (hkeys : ∀ k ∈ keys, OneType env records k.1) {r : Record} (hr : r ∈ records) {sorted : List Record}
    (hsorted : ∀ s ∈ sorted, s ∈ records)
    (horder : sorted.Pairwise fun a b => InOrder Prod.snd (sortValue env) b a keys) :
    ∃ inserted, insertTail env keys r none sorted = (none, inserted) ∧ inserted.Perm (r :: sorted) ∧
      inserted.Pairwise fun a b => InOrder Prod.snd (sortValue env) b a keys := by
  induction sorted with
  | nil => exact ⟨[r], rfl, .refl _, List.pairwise_singleton _ _⟩
  | cons last sorted ih =>
    obtain ⟨hlast, hrest⟩ := List.pairwise_cons.mp horder
    obtain ⟨ord, hord, hlt, hge⟩ := compareRecords_spec hkeys hr (hsorted last List.mem_cons_self)
    rw [insertTail, hord]
    cases ord with
    | lt =>
      obtain ⟨inserted, hinserted, hperm, hpairwise⟩ :=
        ih (fun s hs => hsorted s (List.mem_cons_of_mem _ hs)) hrest
      refine ⟨last :: inserted, by rw [hinserted], ?_, ?_⟩
      · exact (hperm.cons last).trans (.swap r last sorted)
      · refine List.pairwise_cons.mpr ⟨fun s hs => ?_, hpairwise⟩
        rcases List.mem_cons.mp (hperm.mem_iff.mp hs) with rfl | hs
        · exact hlt rfl
        · exact hlast s hs
    | eq | gt =>
      refine ⟨r :: last :: sorted, rfl, .refl _, List.pairwise_cons.mpr ⟨fun s hs => ?_, horder⟩⟩
      have hbehind := hge (by decide)
      rcases List.mem_cons.mp hs with rfl | hs
      · exact hbehind
      · exact (hlast s hs).trans hbehind

/-- **The loop** of insertions puts the rows that remain among those that are in order. -/
theorem foldl_insertTail_spec {records : List Record} {keys : List (Expression × SortDirection)}
    (hkeys : ∀ k ∈ keys, OneType env records k.1) {rest sorted : List Record}
    (hrest : ∀ r ∈ rest, r ∈ records) (hsorted : ∀ s ∈ sorted, s ∈ records)
    (horder : sorted.Pairwise fun a b => InOrder Prod.snd (sortValue env) b a keys) :
    ∃ result, rest.foldl (fun acc r => insertTail env keys r acc.1 acc.2) (none, sorted) = (none, result) ∧
      result.Perm (sorted ++ rest) ∧
      result.Pairwise fun a b => InOrder Prod.snd (sortValue env) b a keys := by
  induction rest generalizing sorted with
  | nil => exact ⟨sorted, rfl, by rw [List.append_nil], horder⟩
  | cons r rest ih =>
    obtain ⟨inserted, hinserted, hperm, hpairwise⟩ :=
      insertTail_spec hkeys (hrest r List.mem_cons_self) hsorted horder
    have hmem : ∀ s ∈ inserted, s ∈ records := by
      intro s hs
      rcases List.mem_cons.mp (hperm.mem_iff.mp hs) with rfl | hs
      · exact hrest s List.mem_cons_self
      · exact hsorted s hs
    obtain ⟨result, hresult, hperm', hpairwise'⟩ :=
      ih (fun s hs => hrest s (List.mem_cons_of_mem _ hs)) hmem hpairwise
    refine ⟨result, ?_, ?_, hpairwise'⟩
    · rw [List.foldl_cons, hinserted, hresult]
    · exact hperm'.trans ((hperm.append_right rest).trans List.perm_middle.symm)

/-- **The sort**: it answers the same rows, in the order of the keys. -/
theorem execSort_sorts {input : ResultSet} {keys : List (Expression × SortDirection)}
    (hkeys : ∀ k ∈ keys, OneType env input.records k.1) :
    ∃ records, execSort env input keys = .ok ⟨input.columns, records⟩ ∧ records.Perm input.records ∧
      records.Pairwise fun a b => InOrder Prod.snd (sortValue env) a b keys := by
  obtain ⟨result, hresult, hperm, hpairwise⟩ := foldl_insertTail_spec hkeys (fun _ h => h)
    (fun _ h => absurd h List.not_mem_nil) .nil
  refine ⟨result.reverse, ?_, (List.reverse_perm result).trans hperm, List.pairwise_reverse.mpr hpairwise⟩
  rw [execSort, sortRecords, hresult]

/-! ## What is returned -/

/-- The item whose alias a sort key is. -/
def aliasIndex (items : List ReturnItem) : Expression → Option Nat
  | .identifier name => items.findIdx? fun item => item.aliasName == some name
  | _ => none

variable (env) in
/-- The key value of a returned row: what the aliased column holds, or what the expression gives on the matched
row behind it. -/
def keyValue (items : List ReturnItem) (key : OrderByItem) (row : Record × List Value) : Value :=
  match aliasIndex items key.expression with
  | some i => (row.2[i]?).getD .null
  | none => sortValue env (key.expression, key.direction) row.1

variable (env) in
/-- A returned row shows the matched row behind it in its items without aggregates. -/
def ComesFrom (items : List ReturnItem) (row : Record × List Value) : Prop :=
  ∀ (i : Nat) item v, items[i]? = some item → hasAggregate item.expression = false →
    evaluate env row.1 item.expression = .ok v → row.2[i]? = some v

variable (env) in
/-- The returned rows are in the order of the keys: at most one is returned, or each comes from a matched row
of its own and they are in order. -/
def SortedBy (items : List ReturnItem) (keys : List OrderByItem) (matched : List Record) (out : ResultSet) :
    Prop :=
  out.records.length ≤ 1 ∨ ∃ rows : List (Record × List Value),
    rows.map (·.2) = out.records.map (·.values) ∧ (rows.map (·.1)).Subperm matched ∧
      (∀ row ∈ rows, ComesFrom env items row) ∧
      rows.Pairwise fun a b => InOrder OrderByItem.direction (keyValue env items) a b keys

/-- Leaving out rows leaves the others in order. -/
theorem SortedBy.sublist {items : List ReturnItem} {keys : List OrderByItem} {matched : List Record}
    {out out' : ResultSet} (h : SortedBy env items keys matched out)
    (hsub : (out'.records.map (·.values)).Sublist (out.records.map (·.values))) :
    SortedBy env items keys matched out' := by
  rcases h with h | ⟨rows, hrows, hmatched, hfrom, horder⟩
  · refine .inl ?_
    have hle := hsub.length_le
    rw [List.length_map, List.length_map] at hle
    exact hle.trans h
  · rw [← hrows] at hsub
    obtain ⟨rows', hrows', heq⟩ := List.sublist_map_iff.mp hsub
    refine .inr ⟨rows', heq.symm, ?_, ?_, horder.sublist hrows'⟩
    · exact (hrows'.map _).subperm.trans hmatched
    · exact fun row hrow => hfrom row (hrows'.subset hrow)

theorem execDistinct_sublist (rs : ResultSet) :
    ((execDistinct env rs).records.map (·.values)).Sublist (rs.records.map (·.values)) := by
  have hvalues : (execDistinct env rs).records.map (·.values) =
      (List.distinctBy (distinctKey env rs.columns) [] rs.records).map (·.values) := by
    simp [execDistinct, ResultSet.ofRows, distinctRecords_eq]
  rw [hvalues]
  exact (List.distinctBy_sublist [] _).map _

theorem execLimit_sublist (rs : ResultSet) (count offset : Option UInt64) :
    ((execLimit rs count offset).records.map (·.values)).Sublist (rs.records.map (·.values)) := by
  have hvalues : ∀ records : List Record, (ResultSet.ofRows rs.columns (records.map (·.values))).records.map
      (·.values) = records.map (·.values) := by
    intro records
    simp [ResultSet.ofRows]
  unfold execLimit
  rw [hvalues]
  cases count with
  | none => exact (List.drop_sublist _ _).map _
  | some c => exact ((List.take_sublist _ _).trans (List.drop_sublist _ _)).map _

/-! ## Sorted rows, projected -/

/-- The key that the planner sorts by. -/
def sortKey (items : List ReturnItem) (key : OrderByItem) : Expression × SortDirection :=
  (QueryPlanner.resolveOrderAlias key.expression items, key.direction)

theorem resolveOrderAlias_eq {items : List ReturnItem} {e : Expression} {i : Nat}
    (h : aliasIndex items e = some i) :
    ∃ item, items[i]? = some item ∧ QueryPlanner.resolveOrderAlias e items = item.expression := by
  cases e with
  | identifier name =>
    obtain ⟨hlt, hname, hfirst⟩ := List.findIdx?_eq_some_iff_getElem.mp h
    have hfind : items.find? (fun item => item.aliasName == some name) = some items[i] :=
      List.find?_eq_some_iff_getElem.mpr ⟨hname, i, hlt, rfl, fun j hj => by simpa using hfirst j hj⟩
    refine ⟨items[i], List.getElem?_eq_getElem hlt, ?_⟩
    rw [QueryPlanner.resolveOrderAlias, hfind]
  | _ => cases h

theorem resolveOrderAlias_eq_self {items : List ReturnItem} {e : Expression} (h : aliasIndex items e = none) :
    QueryPlanner.resolveOrderAlias e items = e := by
  cases e with
  | identifier name =>
    have hfind : items.find? (fun item => item.aliasName == some name) = none := by
      rw [List.find?_eq_none]
      intro item hitem hname
      have hnot := List.findIdx?_eq_none_iff.mp h item hitem
      rw [hname] at hnot
      cases hnot
    rw [QueryPlanner.resolveOrderAlias, hfind]
  | _ => rfl

theorem getElem?_of_evaluateAll {r : Record} {es : List Expression} {vals : List Value}
    (h : evaluateAll env r es = .ok vals) {i : Nat} {e : Expression} (he : es[i]? = some e) :
    ∃ v, vals[i]? = some v ∧ evaluate env r e = .ok v := by
  induction es generalizing vals i with
  | nil => cases he
  | cons e' es ih =>
    obtain ⟨v, hv, h⟩ := Except.bind_eq_ok.mp h
    obtain ⟨vs, hvs, h⟩ := Except.bind_eq_ok.mp h
    cases h
    cases i with
    | zero =>
      cases he
      exact ⟨v, rfl, hv⟩
    | succ i => exact ih hvs he

/-- A projected row has the key values of the sort. -/
theorem keyValue_eq_sortValue {items : List ReturnItem} {m : Record} {vals : List Value} {n : Nat}
    (h : evaluateAll env m (items.map (·.expression)) = .ok (vals.take n)) (key : OrderByItem) :
    keyValue env items key (m, vals) = sortValue env (sortKey items key) m := by
  unfold keyValue sortKey
  cases halias : aliasIndex items key.expression with
  | none => rw [resolveOrderAlias_eq_self halias]
  | some i =>
    obtain ⟨item, hitem, hresolve⟩ := resolveOrderAlias_eq halias
    obtain ⟨v, hv, hval⟩ := getElem?_of_evaluateAll h (i := i) (e := item.expression) (by simp [hitem])
    rw [hresolve]
    have hsort : sortValue env (item.expression, key.direction) m = v := sortValue_of_ok hval
    have hget : vals[i]? = some v := by
      rw [List.getElem?_take] at hv
      split at hv
      · exact hv
      · cases hv
    rw [hsort]
    show (vals[i]?).getD .null = v
    rw [hget]
    rfl

/-- **The projection** of sorted rows, when it does not aggregate. -/
theorem sortedBy_execProject {items : List ReturnItem} {keys : List OrderByItem} {matched : List Record}
    {input projected : ResultSet} (hfree : anyContainsAggregate (items.map (·.expression)) = false)
    (hmatched : input.records.Perm matched)
    (horder : input.records.Pairwise fun a b =>
      InOrder Prod.snd (sortValue env) a b (keys.map (sortKey items)))
    (h : execProject env input (items.map (·.expression)) (items.map (·.aliasName)) = .ok projected) :
    SortedBy env items keys matched projected := by
  obtain ⟨internal, -, hcolumns, hrows⟩ := execProject_eq_ok env hfree h
  by_cases hnone : (input.records.isEmpty && input.columns.isEmpty) = true
  · refine .inl ?_
    rw [← hrows.length_eq, projectedRecords, if_pos hnone]
    exact le_rfl
  rw [projectedRecords, if_neg hnone] at hrows
  have hlength : input.records.length = (projected.records.map (·.values)).length := by
    rw [hrows.length_eq, List.length_map]
  let rows := input.records.zip (projected.records.map (·.values))
  have hfst : rows.map (·.1) = input.records := List.map_fst_zip hlength.le
  have hvals : ∀ row ∈ rows, evaluateAll env row.1 (items.map (·.expression)) =
      .ok (row.2.take items.length) := by
    intro row hrow
    rw [show rows = _ from List.zip_map_right ..] at hrow
    obtain ⟨⟨m, r⟩, hmem, rfl⟩ := List.mem_map.mp hrow
    obtain ⟨vals, rest, hvals, rfl, -⟩ := (List.forall₂_iff_zip.mp hrows).2 hmem
    have hlen := length_of_evaluateAll env hvals
    rw [List.length_map] at hlen
    show evaluateAll env m _ = .ok ((vals ++ rest).take items.length)
    rw [hvals, ← hlen, List.take_left]
  refine .inr ⟨rows, List.map_snd_zip hlength.ge, ?_, ?_, ?_⟩
  · rw [hfst]
    exact hmatched.subperm
  · intro row hrow i item v hitem _ hv
    obtain ⟨w, hw, hval⟩ := getElem?_of_evaluateAll (hvals row hrow) (i := i) (e := item.expression)
      (by simp [hitem])
    rw [hv] at hval
    cases hval
    rw [List.getElem?_take] at hw
    split at hw
    · exact hw
    · cases hw
  · rw [← hfst, List.pairwise_map] at horder
    refine horder.imp_of_mem fun {a b} ha hb hab => ?_
    refine InOrder.of_map (f := sortKey items) (fun k _ => rfl) (fun k _ => ?_) (fun k _ => ?_) hab
    · exact (keyValue_eq_sortValue (hvals a ha) k).symm
    · exact (keyValue_eq_sortValue (hvals b hb) k).symm

/-- Rows of one grouping key make at most one group. -/
theorem length_execProject_le_one {items : List Expression} {aliases : List (Option String)}
    {input out : ResultSet} (hagg : anyContainsAggregate items = true)
    (hsame : ∀ r ∈ input.records, ∀ s ∈ input.records,
      groupKey env (items.filter fun e => !containsAggregate e) r =
        groupKey env (items.filter fun e => !containsAggregate e) s)
    (h : execProject env input items aliases = .ok out) : out.records.length ≤ 1 := by
  rw [execProject, if_pos hagg] at h
  obtain ⟨groups, hgroups, h⟩ := Except.bind_eq_ok.mp h
  by_cases hempty : (groups.isEmpty && (items.filter fun e => !containsAggregate e).isEmpty) = true
  · rw [if_pos hempty] at h
    cases h
    exact le_rfl
  · rw [if_neg hempty] at h
    obtain ⟨rows, hrows, h⟩ := Except.bind_eq_ok.mp h
    cases h
    let tuple (r : Record) : List String :=
      (groupTexts env (items.filter fun e => !containsAggregate e) r).toOption.getD []
    obtain ⟨hall, hcollect⟩ := groupRecords_eq_ok env hgroups tuple fun r _ t ht => by
      simp [tuple, ht, Except.toOption]
    have hkey : ∀ k ∈ groups.toList.map (·.1), ∃ r ∈ input.records, keyText (tuple r) = k := by
      intro k hk
      obtain ⟨group, hgroup, rfl⟩ := List.mem_map.mp hk
      rw [hcollect, OrderedMap.mem_toList_collect] at hgroup
      obtain ⟨r, hr⟩ := List.exists_mem_of_ne_nil _ hgroup.2
      exact ⟨r, OrderedMap.mem_ofKey.mp (hgroup.1 ▸ hr)⟩
    have hone : ∀ k ∈ groups.toList.map (·.1), ∀ k' ∈ groups.toList.map (·.1), k = k' := by
      intro k hk k' hk'
      obtain ⟨r, hr, rfl⟩ := hkey k hk
      obtain ⟨s, hs, rfl⟩ := hkey k' hk'
      have heq := hsame r hr s hs
      rw [groupKey_eq, groupKey_eq, hall r hr, hall s hs] at heq
      exact Except.ok.inj heq
    have hnodup := OrderedMap.nodup_keys_toList groups
    have hlength : (groups.toList.map (·.1)).length ≤ 1 := by
      cases hkeys : groups.toList.map (·.1) with
      | nil => exact Nat.zero_le _
      | cons k ks =>
        rw [hkeys] at hnodup hone
        cases ks with
        | nil => exact le_rfl
        | cons k' ks =>
          have heq := hone k List.mem_cons_self k' (List.mem_cons_of_mem _ List.mem_cons_self)
          exact absurd (heq ▸ List.mem_cons_self) (List.nodup_cons.mp hnodup).1
    rw [List.length_map] at hlength
    show (rows.map _).length ≤ 1
    rw [List.length_map, List.length_of_mapM_eq_ok hrows]
    exact hlength

/-! ## The whole statement -/

variable (env) in
/-- The order survives the projection: no item is found to contain an aggregate, or all rows are of one
group. -/
def OrderSurvives (items : List ReturnItem) (matched : List Record) : Prop :=
  anyContainsAggregate (items.map (·.expression)) = false ∨
    ∀ r ∈ matched, ∀ s ∈ matched,
      groupKey env ((items.map (·.expression)).filter fun e => !containsAggregate e) r =
        groupKey env ((items.map (·.expression)).filter fun e => !containsAggregate e) s

variable {graphId : GraphId} {ω : Stream' Draw} {db : Db}

section run

open Process

/-- Below a `DISTINCT` and a `LIMIT`, which leave out rows, stands the projection. -/
theorem exists_of_applyLimitOffset {plan : LogicalPlan} {distinct : Bool} {limitOffset : Option LimitOffsetClause}
    {out : ResultSet} (h : ((executePlan env graphId (QueryPlanner.applyLimitOffset
      (if distinct then .distinct plan else plan) limitOffset)).run ω db).result = .ok out) :
    ∃ rs, ((executePlan env graphId plan).run ω db).result = .ok rs ∧
      (out.records.map (·.values)).Sublist (rs.records.map (·.values)) := by
  have hdistinct : ∀ {rs : ResultSet},
      ((executePlan env graphId (if distinct then .distinct plan else plan)).run ω db).result = .ok rs →
      ∃ rs', ((executePlan env graphId plan).run ω db).result = .ok rs' ∧
        (rs.records.map (·.values)).Sublist (rs'.records.map (·.values)) := by
    intro rs h
    cases distinct with
    | false => exact ⟨rs, h, .refl _⟩
    | true =>
      rw [if_pos rfl, run_executePlan, optimized, executeNode] at h
      obtain ⟨rs', hrs', h⟩ := result_bind_eq_ok.mp h
      cases h
      rw [← run_executePlan] at hrs'
      exact ⟨rs', hrs', execDistinct_sublist rs'⟩
  cases limitOffset with
  | none => exact hdistinct h
  | some lo =>
    rw [QueryPlanner.applyLimitOffset, run_executePlan, optimized, executeNode] at h
    obtain ⟨rs, hrs, h⟩ := result_bind_eq_ok.mp h
    cases h
    rw [← run_executePlan] at hrs
    obtain ⟨rs', hrs', hsub⟩ := hdistinct hrs
    exact ⟨rs', hrs', (execLimit_sublist rs _ _).trans hsub⟩

/-- **What a `RETURN` adds** to the rows it gets: a sort, a projection, and rows left out of that. -/
theorem exists_of_planReturn {r : ReturnStatement} {keys : List OrderByItem} (hkeys : r.orderBy = some keys)
    {base : LogicalPlan} {out : ResultSet}
    (h : ((executePlan env graphId (QueryPlanner.planReturn r (some base))).run ω db).result = .ok out) :
    ∃ matched sorted projected,
      ((executePlan env graphId base).run ω db).result = .ok matched ∧
      execSort env matched (keys.map (sortKey r.items)) = .ok sorted ∧
      execProject env sorted (r.items.map (·.expression)) (r.items.map (·.aliasName)) = .ok projected ∧
      (out.records.map (·.values)).Sublist (projected.records.map (·.values)) := by
  rw [QueryPlanner.planReturn, hkeys] at h
  obtain ⟨projected, h, hsub⟩ := exists_of_applyLimitOffset h
  rw [run_executePlan, optimized, Option.getD_some, optimized, executeNode, executeNode] at h
  obtain ⟨sorted, h, hproject⟩ := result_bind_eq_ok.mp h
  obtain ⟨matched, hmatched, hsort⟩ := result_bind_eq_ok.mp h
  rw [← run_executePlan] at hmatched
  exact ⟨matched, sorted, projected, hmatched, hsort, hproject, hsub⟩

/-- A program that succeeds has a plan that does. -/
theorem executeProgram_eq_ok {P : GqlProgram} {out : ResultSet} :
    ((executeProgram env graphId P).run ω db).result = .ok out ↔
      ∃ plan, QueryPlanner.plan P = .ok plan ∧ ((executePlan env graphId plan).run ω db).result = .ok out := by
  unfold executeProgram
  cases QueryPlanner.plan P with
  | error e => simp
  | ok plan =>
    rw [run_mapError]
    cases hresult : ((executePlan env graphId plan).run ω db).result <;> simp [hresult, Except.mapError]

end run

/-- The sort key is the alias of an item that is found to contain an aggregate. -/
def NamesAggregate (items : List ReturnItem) (key : OrderByItem) : Prop :=
  ∃ i item, aliasIndex items key.expression = some i ∧ items[i]? = some item ∧
    containsAggregate item.expression = true

theorem mem_of_execSort {input rs : ResultSet} {keys : List (Expression × SortDirection)}
    (h : execSort env input keys = .ok rs) : ∀ r ∈ rs.records, r ∈ input.records := by
  have hmem := @mem_of_mem_sortRecords env keys input.records
  unfold execSort at h
  split at h
  · cases h
  · next records hsorted =>
    cases h
    rw [hsorted] at hmem
    exact hmem

/-- **`ORDER BY`** puts the returned rows in order, by keys with values of one type, where the order survives
the projection. -/
theorem orderBy_sorts {m : MatchStatement} {r : ReturnStatement} {keys : List OrderByItem}
    (hkeys : r.orderBy = some keys) {out : ResultSet}
    (h : ((executeProgram env graphId ⟨[.matchStmt m, .returnStmt r]⟩).run ω db).result = .ok out) :
    ∃ matched, ((executeProgram env graphId ⟨[.matchStmt m]⟩).run ω db).result = .ok matched ∧
      ((∀ key ∈ keys, NamesAggregate r.items key ∨ OneType env matched.records (sortKey r.items key).1) →
        OrderSurvives env r.items matched.records → SortedBy env r.items keys matched.records out) := by
  obtain ⟨plan, hplan, hrun⟩ := executeProgram_eq_ok.mp h
  obtain ⟨current, hcurrent, rfl⟩ := QueryPlanner.plan_eq_ok.mp hplan
  obtain ⟨base, hbase, hrest⟩ := QueryPlanner.planFrom_cons_eq_ok.mp hcurrent
  obtain ⟨plan, hreturn, hend⟩ := QueryPlanner.planFrom_cons_eq_ok.mp hrest
  cases hend
  cases hreturn
  obtain ⟨matched, sorted, projected, hmatched, hsort, hproject, hsub⟩ := exists_of_planReturn hkeys hrun
  have halone : QueryPlanner.plan ⟨[.matchStmt m]⟩ = .ok base :=
    QueryPlanner.plan_eq_ok.mpr ⟨some base, QueryPlanner.planFrom_cons_eq_ok.mpr ⟨base, hbase, rfl⟩, rfl⟩
  refine ⟨matched, executeProgram_eq_ok.mpr ⟨base, halone, hmatched⟩, fun htypes hsurvives => ?_⟩
  suffices hprojected : SortedBy env r.items keys matched.records projected from hprojected.sublist hsub
  cases hfree : anyContainsAggregate (r.items.map (·.expression)) with
  | true =>
    have hsame := hsurvives.resolve_left (by rw [hfree]; decide)
    have hmem := mem_of_execSort hsort
    refine .inl (length_execProject_le_one hfree (fun a ha b hb => ?_) hproject)
    exact hsame a (hmem a ha) b (hmem b hb)
  | false =>
    have hone : ∀ key ∈ keys.map (sortKey r.items), OneType env matched.records key.1 := by
      intro _ hmem
      obtain ⟨key, hkey, rfl⟩ := List.mem_map.mp hmem
      refine (htypes key hkey).resolve_left ?_
      intro ⟨i, item, _, hitem, hagg⟩
      have hmem : item.expression ∈ r.items.map (·.expression) :=
        List.mem_map_of_mem (List.mem_of_getElem? hitem)
      rw [anyContainsAggregate_of_mem hmem hagg] at hfree
      cases hfree
    obtain ⟨records, hrecords, hperm, horder⟩ := execSort_sorts hone
    rw [hrecords] at hsort
    cases hsort
    exact sortedBy_execProject hfree hperm horder hproject

/-! ### Two persons -/

/-- A person of the age `x`. -/
def personAged (id : UInt8) (x : Int64) : Node :=
  { person with id := ⟨sampleId id⟩, properties := Std.ExtTreeMap.ofList [("x", .integer x)] _ }

/-- `bincode` on the two persons. -/
def agedBincode : Bincode := .table sampleRuntime.formats [personAged 1 9, personAged 2 10] [] []

/-- A person of 9 and one of 10. -/
def agedPersons : Db := storeRun agedBincode [.putNode (personAged 1 9), .putNode (personAged 2 10)]

/-- `MATCH (n:Person)`. -/
def matchPersons : MatchStatement := ⟨none, [nodePattern (some "n") "Person"], none⟩

/-- `n.x AS x`. -/
def ageItem : ReturnItem := ⟨.propertyAccess (.identifier "n") "x", some "x"⟩

/-- `COUNT(*) AS c`. -/
def countItem : ReturnItem := ⟨.aggregate .count false none, some "c"⟩

/-- `RETURN items ORDER BY x` in a direction. -/
def returnByAge (items : List ReturnItem) (direction : SortDirection) : ReturnStatement :=
  ⟨false, items, some [⟨.identifier "x", direction⟩], none⟩

/-- What `MATCH (n:Person)` finds. -/
def agedRows : ResultSet :=
  .ofRows ["__node_id", "__labels", "x", "n", "n.x"] [ageRow 1 9, ageRow 2 10]
where
  ageRow (id : UInt8) (x : Int64) : List Value :=
    [.string (sampleId id).toString, .list [.string "Person"], .integer x, nodeValue (personAged id x),
      .integer x]

/-- `RETURN n.x AS x ORDER BY x DESC` returns 10 before 9. -/
theorem orderBy_sorts_ages :
    ∃ matched out, ((executeProgram (sampleEnv agedBincode) sampleGraph ⟨[.matchStmt matchPersons,
        .returnStmt (returnByAge [ageItem] .desc)]⟩).run sampleDraws agedPersons).result = .ok out ∧
      SortedBy (sampleEnv agedBincode) [ageItem] [⟨.identifier "x", .desc⟩] matched out := by
  have hrun : ((executeProgram (sampleEnv agedBincode) sampleGraph ⟨[.matchStmt matchPersons,
      .returnStmt (returnByAge [ageItem] .desc)]⟩).run sampleDraws agedPersons).result =
      .ok (.ofRows ["x", "__node_id", "__labels"]
        [[.integer 10, .string (sampleId 2).toString, .list [.string "Person"]],
          [.integer 9, .string (sampleId 1).toString, .list [.string "Person"]]]) := by
    decide +kernel
  have hmatch : ((executeProgram (sampleEnv agedBincode) sampleGraph ⟨[.matchStmt matchPersons]⟩).run
      sampleDraws agedPersons).result = .ok agedRows := by
    decide
  obtain ⟨matched, hmatched, hsorted⟩ := orderBy_sorts (r := returnByAge [ageItem] .desc) rfl hrun
  rw [hmatch] at hmatched
  cases hmatched
  refine ⟨_, _, hrun, hsorted (fun key hkey => .inr (.inl fun r hr => ?_)) (.inl rfl)⟩
  cases List.mem_singleton.mp hkey
  rcases List.mem_cons.mp hr with rfl | hr
  · exact ⟨9, rfl⟩
  · cases List.mem_singleton.mp hr
    exact ⟨10, rfl⟩

/-- `RETURN n.x AS x, COUNT(*) AS c ORDER BY x` returns 10 before 9, as the text of the one is less. -/
theorem orderBy_not_sorted :
    ∃ out, ((executeProgram (sampleEnv agedBincode) sampleGraph ⟨[.matchStmt matchPersons,
        .returnStmt (returnByAge [ageItem, countItem] .asc)]⟩).run sampleDraws agedPersons).result = .ok out ∧
      ∀ matched, ¬ SortedBy (sampleEnv agedBincode) [ageItem, countItem] [⟨.identifier "x", .asc⟩] matched
        out := by
  refine ⟨.ofRows ["x", "c"] [[.integer 10, .integer 1], [.integer 9, .integer 1]], by decide, ?_⟩
  intro matched h
  rcases h with h | ⟨rows, hrows, -, -, horder⟩
  · exact absurd h (by decide)
  · obtain ⟨first, rows, rfl, hfirst, hrows⟩ := List.map_eq_cons_iff.mp hrows
    obtain ⟨second, rows, rfl, hsecond, -⟩ := List.map_eq_cons_iff.mp hrows
    have hbefore := (List.pairwise_cons.mp horder).1 second List.mem_cons_self
    have hten : keyValue (sampleEnv agedBincode) [ageItem, countItem] ⟨.identifier "x", .asc⟩ first =
        .integer 10 := by
      show (first.2[0]?).getD .null = _
      rw [hfirst]
      rfl
    have hnine : keyValue (sampleEnv agedBincode) [ageItem, countItem] ⟨.identifier "x", .asc⟩ second =
        .integer 9 := by
      show (second.2[0]?).getD .null = _
      rw [hsecond]
      rfl
    rw [InOrder, hten, hnine] at hbefore
    rcases hbefore with hbefore | ⟨heq, -⟩
    · have hlt : (10 : Int64) < 9 := hbefore
      exact absurd hlt (by decide)
    · cases heq

end Synaptica.Exec
