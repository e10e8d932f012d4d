import Synaptica.Exec.Grouping
import Synaptica.Exec.Rows
import Synaptica.Lib.DistinctBy

/-!
# `RETURN DISTINCT`

`exec_distinct` compares rows by the columns whose name does not start with `__`, since those that do are
carried along by the projection. A column of the user can have such a name too.
-/

namespace Synaptica.Exec

open Gql Storage

variable (env : Env)

/-- The values in the columns that `exec_distinct` compares. -/
def visibleValues (columns : List String) (vals : List Value) : List Value :=
  (columns.zip vals).filterMap fun p => if p.1.startsWith "__" then none else some p.2

/-- The rows that a projection reads: without columns, one empty row. -/
def projectedRecords (input : ResultSet) : List Record :=
  if input.records.isEmpty && input.columns.isEmpty then [⟨[], []⟩] else input.records

/-! ## Projection -/

theorem anyContainsAggregate_eq_false {es : List Expression} (h : ∀ e ∈ es, hasAggregate e = false) :
    anyContainsAggregate es = false := by
  induction es with
  | nil => rfl
  | cons e es ih =>
    have he : containsAggregate e = false := by
      by_contra hc
      have hhas := hasAggregate_of_containsAggregate e (Bool.not_eq_false _ ▸ hc)
      rw [h e List.mem_cons_self] at hhas
      cases hhas
    rw [anyContainsAggregate, he, ih fun e he => h e (List.mem_cons_of_mem _ he)]
    rfl

/-- One projected row: the values of the items, then those of internal columns. -/
theorem projectRows_eq_ok {expressions : List Expression} {internal : List (Option Nat)}
    {records : List Record} {rows : List (List Value)}
    (h : projectRows env expressions internal records = .ok rows) :
    List.Forall₂ (fun r row => ∃ vals rest, evaluateAll env r expressions = .ok vals ∧
      row = vals ++ rest ∧ rest.length = internal.length) records rows := by
  induction records generalizing rows with
  | nil =>
    cases h
    exact .nil
  | cons r records ih =>
    obtain ⟨row, hrow, h⟩ := Except.bind_eq_ok.mp h
    obtain ⟨rows, hrows, h⟩ := Except.bind_eq_ok.mp h
    obtain ⟨vals, hvals, hrow⟩ := Except.bind_eq_ok.mp hrow
    cases h
    cases hrow
    exact .cons ⟨vals, _, hvals, rfl, List.length_map _⟩ (ih hrows)

/-- **A projection without aggregates**: one row for each record, with the values of the items in front. -/
theorem execProject_eq_ok {input projected : ResultSet} {expressions : List Expression}
    {aliases : List (Option String)} (hfree : anyContainsAggregate expressions = false)
    (h : execProject env input expressions aliases = .ok projected) :
    ∃ internal : List String, (∀ c ∈ internal, c.startsWith "__") ∧
      projected.columns = projectColumns expressions aliases ++ internal ∧
      List.Forall₂ (fun r row => ∃ vals rest, evaluateAll env r expressions = .ok vals ∧
        row = ⟨projected.columns, vals ++ rest⟩ ∧ rest.length = internal.length)
        (projectedRecords input) projected.records := by
  rw [execProject, hfree, if_neg (by decide)] at h
  refine ⟨internalColumns input.columns (projectColumns expressions aliases), ?_, ?_⟩
  · intro c hc
    exact (Bool.and_eq_true_iff.mp (List.mem_filter.mp hc).2).1
  · by_cases hnone : (input.records.isEmpty && input.columns.isEmpty) = true
    · rw [if_pos hnone] at h
      obtain ⟨vals, hvals, h⟩ := Except.bind_eq_ok.mp h
      cases h
      have hinternal : internalColumns input.columns (projectColumns expressions aliases) = [] := by
        rw [List.isEmpty_iff.mp (Bool.and_eq_true_iff.mp hnone).2]
        rfl
      rw [projectedRecords, if_pos hnone, hinternal]
      refine ⟨rfl, .cons ⟨vals, [], hvals, ?_, rfl⟩ .nil⟩
      simp [ResultSet.ofRows]
    · rw [if_neg hnone] at h
      obtain ⟨rows, hrows, h⟩ := Except.bind_eq_ok.mp h
      cases h
      rw [projectedRecords, if_neg hnone]
      refine ⟨rfl, List.forall₂_map_right_iff.mpr ((projectRows_eq_ok env hrows).imp ?_)⟩
      rintro r row ⟨vals, rest, hvals, rfl, hlength⟩
      exact ⟨vals, rest, hvals, rfl, hlength.trans (List.length_map _)⟩

/-! ## The key of a row -/

theorem distinctRecords_eq (columns : List String) (seen : List String) (records : List Record) :
    distinctRecords env columns seen records =
      List.distinctBy (distinctKey env columns) seen records := by
  induction records generalizing seen with
  | nil => rfl
  | cons r records ih => simp only [distinctRecords, List.distinctBy, ih]

theorem visibleValues_cons_hidden {c : String} (hc : c.startsWith "__" = true) (columns : List String)
    (v : Value) (vals : List Value) :
    visibleValues (c :: columns) (v :: vals) = visibleValues columns vals := by
  unfold visibleValues
  rw [List.zip_cons_cons, List.filterMap_cons]
  simp only [hc, if_true]

theorem visibleValues_cons_visible {c : String} (hc : ¬ c.startsWith "__" = true) (columns : List String)
    (v : Value) (vals : List Value) :
    visibleValues (c :: columns) (v :: vals) = v :: visibleValues columns vals := by
  unfold visibleValues
  rw [List.zip_cons_cons, List.filterMap_cons]
  simp only [hc, Bool.false_eq_true, if_false]

/-- The values at the visible positions of the columns, counted from `n`. -/
theorem visible_zipIdx (columns : List String) (before vals : List Value)
    (hlength : columns.length ≤ vals.length) :
    ((columns.zipIdx before.length).filter fun c => !c.1.startsWith "__").map (fun c =>
        (((before ++ vals)[c.2]?).getD .null)) = visibleValues columns vals := by
  induction columns generalizing before vals with
  | nil => rfl
  | cons c columns ih =>
    cases vals with
    | nil => cases hlength
    | cons v vals =>
      have hrest := ih (before ++ [v]) vals (Nat.le_of_succ_le_succ hlength)
      rw [List.append_assoc, List.singleton_append, List.length_append, List.length_singleton] at hrest
      rw [List.zipIdx_cons]
      by_cases hc : c.startsWith "__" = true
      · rw [List.filter_cons_of_neg (by rw [hc]; decide), hrest, visibleValues_cons_hidden hc]
      · have hvalue : ((before ++ v :: vals)[before.length]?).getD .null = v := by simp
        rw [List.filter_cons_of_pos (by rw [Bool.eq_false_of_not_eq_true hc]; decide), List.map_cons, hrest,
          hvalue, visibleValues_cons_visible hc]

/-- The key of a projected row is made of the visible values of the items. -/
theorem distinctKey_eq {columns internal : List String} (hinternal : ∀ c ∈ internal, c.startsWith "__")
    {vals rest : List Value} (hlength : columns.length = vals.length) (cols : List String) :
    distinctKey env (columns ++ internal) ⟨cols, vals ++ rest⟩ =
      "|".intercalate (texts env (visibleValues columns vals)) := by
  have hhidden : ∀ n, (internal.zipIdx n).filter (fun c => !c.1.startsWith "__") = [] := by
    intro n
    rw [List.filter_eq_nil_iff]
    intro c hc
    have hmem : c.1 ∈ internal := List.fst_mem_of_mem_zipIdx hc
    rw [hinternal _ hmem]
    decide
  have hvisible := visible_zipIdx columns [] (vals ++ rest) (by simp [hlength])
  have hdrop : visibleValues columns (vals ++ rest) = visibleValues columns vals := by
    have hzip : List.zip columns (vals ++ rest) = List.zip columns vals := by
      simpa using @List.zip_append _ _ columns [] vals rest hlength
    rw [visibleValues, hzip, visibleValues]
  unfold distinctKey
  rw [List.zipIdx_append, List.filter_append, hhidden, List.append_nil, ← hdrop, ← hvisible, texts,
    List.map_map]
  rfl

/-- The visible texts are determined by all of them. -/
theorem texts_visibleValues (columns : List String) (vals : List Value) :
    texts env (visibleValues columns vals) = (columns.zip (texts env vals)).filterMap fun p =>
      if p.1.startsWith "__" then none else some p.2 := by
  unfold texts visibleValues
  rw [List.zip_map_right, List.filterMap_map, List.map_filterMap]
  refine List.filterMap_congr fun p _ => ?_
  by_cases hc : p.1.startsWith "__" = true
  · simp only [Function.comp_apply, Prod.map_fst, id_eq, hc, if_true, Option.map_none]
  · simp only [Function.comp_apply, Prod.map_fst, Prod.map_snd, id_eq, hc, Bool.false_eq_true, if_false,
      Option.map_some]

/-- The projected tuples of the input, and the rows that hold them. -/
theorem execProject_tuples {input projected : ResultSet} {expressions : List Expression}
    {aliases : List (Option String)} (hfree : ∀ e ∈ expressions, hasAggregate e = false)
    (h : execProject env input expressions aliases = .ok projected) :
    ∃ vals : List (List Value),
      (projectedRecords input).mapM (fun r => evaluateAll env r expressions) = .ok vals ∧
      List.Forall₂ (fun v row => row.values.take expressions.length = v ∧
        distinctKey env projected.columns row =
          "|".intercalate (texts env (visibleValues (projectColumns expressions aliases) v)))
        vals projected.records := by
  obtain ⟨internal, hinternal, hcolumns, hrows⟩ := execProject_eq_ok env (anyContainsAggregate_eq_false hfree) h
  refine ⟨projected.records.map fun row => row.values.take expressions.length, ?_, ?_⟩
  · rw [List.mapM_eq_ok_iff_forall₂, List.forall₂_map_right_iff]
    refine hrows.imp ?_
    rintro r row ⟨vals, rest, hvals, rfl, -⟩
    rw [← length_of_evaluateAll env hvals, List.take_left]
    exact hvals
  · rw [List.forall₂_map_left_iff, List.forall₂_same]
    intro row hrow
    obtain ⟨r, -, vals, rest, hvals, rfl, -⟩ := hrows.flip.exists_of_mem hrow
    refine ⟨rfl, ?_⟩
    rw [← length_of_evaluateAll env hvals, List.take_left, hcolumns]
    exact distinctKey_eq env hinternal
      ((length_projectColumns _ _).trans (length_of_evaluateAll env hvals).symm) _

/-- **`RETURN DISTINCT` removes exactly the duplicates**, each tuple of values staying where it occurs
first, exactly when no two input rows differ in columns whose name starts with `__` alone. -/
theorem distinct_exact_iff {input projected : ResultSet} {expressions : List Expression}
    {aliases : List (Option String)} (hfree : ∀ e ∈ expressions, hasAggregate e = false)
    (h : execProject env input expressions aliases = .ok projected)
    (hdecode : ∀ r ∈ projectedRecords input, ∀ s ∈ projectedRecords input, ∀ v w,
      evaluateAll env r expressions = .ok v → evaluateAll env s expressions = .ok w →
      "|".intercalate (texts env (visibleValues (projectColumns expressions aliases) v)) =
        "|".intercalate (texts env (visibleValues (projectColumns expressions aliases) w)) →
      texts env (visibleValues (projectColumns expressions aliases) v) =
        texts env (visibleValues (projectColumns expressions aliases) w)) :
    ∃ tuples : List (List Value),
      (projectedRecords input).mapM (fun r => evaluateAll env r expressions) = .ok tuples ∧
      (((execDistinct env projected).records.map fun row =>
          texts env (row.values.take expressions.length)) = (tuples.map (texts env)).eraseDups ↔
        ∀ v ∈ tuples, ∀ w ∈ tuples,
          texts env (visibleValues (projectColumns expressions aliases) v) =
            texts env (visibleValues (projectColumns expressions aliases) w) → texts env v = texts env w) := by
  obtain ⟨tuples, htuples, hrows⟩ := execProject_tuples env hfree h
  refine ⟨tuples, htuples, ?_⟩
  let columns := projectColumns expressions aliases
  let tuple (row : Record) : List String := texts env (row.values.take expressions.length)
  have hkeep : (execDistinct env projected).records.map tuple =
      (List.distinctBy (distinctKey env projected.columns) [] projected.records).map tuple := by
    simp only [execDistinct, ResultSet.ofRows, distinctRecords_eq, List.map_map]
    rfl
  have hall : tuples.map (texts env) = projected.records.map tuple :=
    List.map_eq_map_of_forall₂ (hrows.imp fun v row h => congrArg (texts env) h.1.symm)
  -- each row holds a tuple, and its key is made of the visible part
  have hrow : ∀ row ∈ projected.records, ∃ v ∈ tuples, tuple row = texts env v ∧
      distinctKey env projected.columns row = "|".intercalate (texts env (visibleValues columns v)) := by
    intro row hmem
    obtain ⟨v, hv, htake, hkey⟩ := hrows.flip.exists_of_mem hmem
    exact ⟨v, hv, congrArg (texts env) htake, hkey⟩
  have hdecode' : ∀ v ∈ tuples, ∀ w ∈ tuples, "|".intercalate (texts env (visibleValues columns v)) =
      "|".intercalate (texts env (visibleValues columns w)) →
      texts env (visibleValues columns v) = texts env (visibleValues columns w) := by
    intro v hv w hw
    obtain ⟨r, hr, hrv⟩ := List.exists_of_mem_mapM htuples hv
    obtain ⟨s, hs, hsw⟩ := List.exists_of_mem_mapM htuples hw
    exact hdecode r hr s hs v w hrv hsw
  show (execDistinct env projected).records.map tuple = _ ↔ _
  rw [hkeep, hall, List.map_distinctBy_eq_eraseDups_iff]
  · constructor
    · intro h v hv w hw hvisible
      obtain ⟨row, hrow, htake, hkey⟩ := hrows.exists_of_mem hv
      obtain ⟨row', hrow', htake', hkey'⟩ := hrows.exists_of_mem hw
      have heq := h row hrow row' hrow' (by rw [hkey, hkey', hvisible])
      simpa only [tuple, htake, htake'] using heq
    · intro h row hmem row' hmem' hkeys
      obtain ⟨v, hv, htuple, hkey⟩ := hrow row hmem
      obtain ⟨w, hw, htuple', hkey'⟩ := hrow row' hmem'
      rw [htuple, htuple']
      exact h v hv w hw (hdecode' v hv w hw (hkey.symm.trans (hkeys.trans hkey')))
  · intro row hmem row' hmem' htuples
    obtain ⟨v, hv, htuple, hkey⟩ := hrow row hmem
    obtain ⟨w, hw, htuple', hkey'⟩ := hrow row' hmem'
    have heq : texts env v = texts env w := htuple.symm.trans (htuples.trans htuple')
    rw [hkey, hkey', texts_visibleValues, texts_visibleValues, heq]

/-- `RETURN DISTINCT x` on the rows 1, 1. -/
theorem distinct_exact_sample :
    ∃ tuples : List (List Value), ((execDistinct (sampleEnv sampleBincode)
        (.ofRows ["x"] [[.integer 1], [.integer 1]])).records.map fun row =>
          texts (sampleEnv sampleBincode) (row.values.take 1)) =
      (tuples.map (texts (sampleEnv sampleBincode))).eraseDups := by
  have hproject : execProject (sampleEnv sampleBincode) (.ofRows ["x"] [[.integer 1], [.integer 1]])
      [.identifier "x"] [none] = .ok (.ofRows ["x"] [[.integer 1], [.integer 1]]) := by
    decide
  have hsame : ∀ r ∈ projectedRecords (.ofRows ["x"] [[.integer 1], [.integer 1]]), ∀ v,
      evaluateAll (sampleEnv sampleBincode) r [.identifier "x"] = .ok v → v = [.integer 1] := by
    intro r hr v hv
    have hr' : r = ⟨["x"], [.integer 1]⟩ := by
      simpa [projectedRecords, ResultSet.ofRows] using hr
    rw [hr'] at hv
    exact (Except.ok.inj hv).symm
  have hfree : ∀ e ∈ [Expression.identifier "x"], hasAggregate e = false := by
    intro e he
    rw [List.mem_singleton.mp he]
    rfl
  obtain ⟨tuples, htuples, hiff⟩ := distinct_exact_iff (sampleEnv sampleBincode) hfree hproject
    (fun r hr s hs v w hv hw _ => by rw [hsame r hr v hv, hsame s hs w hw])
  refine ⟨tuples, hiff.mpr fun v hv w hw _ => ?_⟩
  obtain ⟨r, hr, hrv⟩ := List.exists_of_mem_mapM htuples hv
  obtain ⟨s, hs, hsw⟩ := List.exists_of_mem_mapM htuples hw
  rw [hsame r hr v hrv, hsame s hs w hsw]

/-- `RETURN DISTINCT x AS __x` on the rows 1, 2 returns the first one alone. -/
theorem distinct_not_exact :
    ∃ projected, execProject (sampleEnv sampleBincode) (.ofRows ["x"] [[.integer 1], [.integer 2]])
        [.identifier "x"] [some "__x"] = .ok projected ∧
      ((execDistinct (sampleEnv sampleBincode) projected).records.map fun row =>
          texts (sampleEnv sampleBincode) (row.values.take 1)) = [["Integer(1)"]] ∧
      ([[Value.integer 1], [.integer 2]].map (texts (sampleEnv sampleBincode))).eraseDups =
        [["Integer(1)"], ["Integer(2)"]] :=
  ⟨.ofRows ["__x"] [[.integer 1], [.integer 2]], by decide +kernel, by decide +kernel, by decide +kernel⟩

end Synaptica.Exec
