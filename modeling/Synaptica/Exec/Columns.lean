import Synaptica.Exec.Rows

/-!
# Values by column name

A row is looked up by name, and the first column of that name answers. This module says what the rows
that scans and expand steps build answer: their columns come in blocks, and a variable's block is its
own column and one column for each property key, written `variable.key`.
-/

namespace Synaptica.Exec

open Gql Storage

/-! ## Names -/

/-- No dot, as in every name that is written without quotes. -/
def DotFree (name : String) : Prop := '.' ∉ name.toList

instance (name : String) : Decidable (DotFree name) := inferInstanceAs (Decidable (_ ∉ _))

theorem dotFree_of_isIdentifier {word : String} (h : isIdentifier word) : DotFree word := by
  rw [DotFree]
  unfold isIdentifier at h
  cases hword : word.toList with
  | nil => simp
  | cons c cs =>
    rw [hword] at h
    simp only [Bool.and_eq_true, Bool.or_eq_true, List.all_eq_true] at h
    obtain ⟨hc, hcs⟩ := h
    rintro hdot
    rcases List.mem_cons.mp hdot with rfl | hdot
    · exact absurd hc (by decide)
    · exact absurd (hcs _ hdot) (by decide)

/-- The column of a variable's property. -/
def dotted (var key : String) : String := var ++ "." ++ key

theorem toList_dotted (var key : String) : (dotted var key).toList = var.toList ++ '.' :: key.toList := by
  simp [dotted]

theorem DotFree.ne_dotted {name : String} (h : DotFree name) (var key : String) :
    name ≠ dotted var key := by
  rintro rfl
  apply h
  rw [toList_dotted]
  exact List.mem_append_right _ List.mem_cons_self

theorem dotted_right_injective (var : String) : Function.Injective (dotted var) := by
  intro k k' h
  have hlist := congrArg String.toList h
  rw [toList_dotted, toList_dotted, List.append_cancel_left_eq, List.cons.injEq] at hlist
  exact String.toList_injective hlist.2

/-- The first dot ends the variable. -/
theorem dotted_inj {v w k j : String} (hv : DotFree v) (hw : DotFree w) :
    dotted v k = dotted w j ↔ v = w ∧ k = j := by
  constructor
  · intro h
    have hlist := congrArg String.toList h
    rw [toList_dotted, toList_dotted] at hlist
    have hfirst : ∀ x : String, DotFree x → ∀ rest : List Char,
        (x.toList ++ '.' :: rest).takeWhile (· ≠ '.') = x.toList := by
      intro x hx rest
      rw [List.takeWhile_append_of_pos]
      · simp
      · intro c hc
        simp only [ne_eq, decide_eq_true_eq]
        rintro rfl
        exact hx hc
    have hvw : v.toList = w.toList := by
      rw [← hfirst v hv k.toList, hlist, hfirst w hw]
    obtain rfl := String.toList_injective hvw
    exact ⟨rfl, dotted_right_injective v h⟩
  · rintro ⟨rfl, rfl⟩
    rfl

/-! ## Looking up -/

namespace Record

variable {cs cs' : List String} {vs vs' : List Value} {name : String}

@[simp] theorem get_nil : (⟨[], vs⟩ : Record).get name = none := rfl

theorem get_cons (c : String) (v : Value) :
    (⟨c :: cs, v :: vs⟩ : Record).get name = if c = name then some v else (⟨cs, vs⟩ : Record).get name := by
  unfold get
  rw [List.idxOf?_cons]
  by_cases h : c = name
  · simp [h]
  · rw [if_neg (by simpa using h), if_neg h, Option.bind_map]
    rfl

theorem get_eq_none_iff (h : vs.length = cs.length) :
    (⟨cs, vs⟩ : Record).get name = none ↔ name ∉ cs := by
  induction cs generalizing vs with
  | nil => simp
  | cons c cs ih =>
    obtain ⟨v, vs, rfl⟩ := List.exists_cons_of_length_eq_add_one h
    rw [get_cons, List.mem_cons, not_or]
    split
    · rename_i hc
      simp [hc]
    · rename_i hc
      rw [ih (by simpa using h)]
      simp [Ne.symm hc]

theorem mem_columns_of_get {r : Record} {x : Value} (h : r.get name = some x) : name ∈ r.columns := by
  obtain ⟨i, hi, -⟩ := Option.bind_eq_some_iff.mp h
  obtain ⟨hlt, hname, -⟩ := List.idxOf?_eq_some_iff.mp hi
  rw [← hname]
  exact List.getElem_mem hlt

/-- Columns that were added answer after those that were there. -/
theorem get_append (h : vs.length = cs.length) :
    (⟨cs ++ cs', vs ++ vs'⟩ : Record).get name =
      ((⟨cs, vs⟩ : Record).get name).or ((⟨cs', vs'⟩ : Record).get name) := by
  induction cs generalizing vs with
  | nil =>
    obtain rfl := List.eq_nil_of_length_eq_zero h
    rfl
  | cons c cs ih =>
    obtain ⟨v, vs, rfl⟩ := List.exists_cons_of_length_eq_add_one h
    rw [List.cons_append, List.cons_append, get_cons, get_cons]
    split
    · rfl
    · exact ih (by simpa using h)

/-- One column for each key. -/
theorem get_map {f : String → Value} {g : String → String} (hg : Function.Injective g)
    (keys : List String) (k : String) :
    (⟨keys.map g, keys.map f⟩ : Record).get (g k) = if k ∈ keys then some (f k) else none := by
  induction keys with
  | nil => rfl
  | cons key keys ih =>
    rw [List.map_cons, List.map_cons, get_cons, ih]
    by_cases h : key = k
    · simp [h]
    · rw [if_neg (fun heq => h (hg heq))]
      simp [Ne.symm h]

/-- A row that is overwritten at the position of a name. -/
theorem get_set {i : Nat} (h : vs.length = cs.length) (hi : cs.idxOf? name = some i) (v : Value)
    (other : String) :
    (⟨cs, vs.set i v⟩ : Record).get other = if other = name then some v else (⟨cs, vs⟩ : Record).get other := by
  obtain ⟨hlt, hget, -⟩ := List.idxOf?_eq_some_iff.mp hi
  by_cases hother : other = name
  · subst hother
    rw [if_pos rfl]
    show ((cs.idxOf? other).bind fun j => (vs.set i v)[j]?) = some v
    rw [hi, Option.bind_some, List.getElem?_set_self (h ▸ hlt)]
  · rw [if_neg hother]
    show ((cs.idxOf? other).bind fun j => (vs.set i v)[j]?) = (cs.idxOf? other).bind fun j => vs[j]?
    cases hj : cs.idxOf? other with
    | none => rfl
    | some j =>
      obtain ⟨hltj, hgetj, -⟩ := List.idxOf?_eq_some_iff.mp hj
      have hne : i ≠ j := by
        rintro rfl
        exact hother (by simpa [hget] using hgetj.symm)
      rw [Option.bind_some, Option.bind_some, List.getElem?_set_ne hne]

end Record

/-! ## The block of a variable -/

section Block

variable {keys : List String} {x : Value} {f : String → Value} {v : String}

theorem ne_dotted_self (v k : String) : v ≠ dotted v k := by
  intro h
  have hlength := congrArg (List.length ∘ String.toList) h
  simp only [Function.comp_apply, toList_dotted, List.length_append, List.length_cons] at hlength
  omega

/-- The block of a variable that is bound to `x`, with the values `f` of its properties. -/
def blockRow (keys : List String) (var : Option String) (x : Value) (f : String → Value) : Record :=
  ⟨variableColumns keys var, if var.isSome then x :: keys.map f else []⟩

theorem blockRow_length (var : Option String) :
    (blockRow keys var x f).values.length = (blockRow keys var x f).columns.length := by
  cases var <;> simp [blockRow, variableColumns]

@[simp] theorem get_blockRow_none (name : String) : (blockRow keys none x f).get name = none := rfl

@[simp] theorem get_blockRow_self : (blockRow keys (some v) x f).get v = some x := by
  show (⟨v :: _, x :: _⟩ : Record).get v = some x
  rw [Record.get_cons, if_pos rfl]

theorem get_blockRow_of_ne {name : String} (h : v ≠ name) : (blockRow keys (some v) x f).get name =
    (⟨keys.map (dotted v), keys.map f⟩ : Record).get name := by
  show (⟨v :: _, x :: _⟩ : Record).get name = _
  rw [Record.get_cons, if_neg h]
  rfl

@[simp] theorem get_blockRow_dotted (k : String) :
    (blockRow keys (some v) x f).get (dotted v k) = if k ∈ keys then some (f k) else none := by
  rw [get_blockRow_of_ne (ne_dotted_self v k), Record.get_map (dotted_right_injective v)]

/-- It answers to the dotted names of its own variable only. -/
theorem get_blockRow_dotted_iff {var : Option String} {k : String} {w : Value} (hvar : ∀ u ∈ var, DotFree u)
    (hv : DotFree v) :
    (blockRow keys var x f).get (dotted v k) = some w ↔ var = some v ∧ k ∈ keys ∧ f k = w := by
  cases var with
  | none => simp
  | some u =>
    have hu := hvar u rfl
    by_cases huv : u = v
    · subst huv
      rw [get_blockRow_dotted]
      simp
    · rw [get_blockRow_of_ne (hu.ne_dotted v k), Option.some_inj, iff_false_right (fun h => huv h.1)]
      have hnone : (⟨keys.map (dotted u), keys.map f⟩ : Record).get (dotted v k) = none := by
        rw [Record.get_eq_none_iff (by simp)]
        intro hmem
        obtain ⟨j, -, hj⟩ := List.mem_map.mp hmem
        exact huv ((dotted_inj hu hv).mp hj).1
      rw [hnone]
      simp

/-- A block answers to its variable and to dotted names. -/
theorem get_blockRow_of_dotFree {var : Option String} {name : String} (hdot : DotFree name)
    (hvar : ∀ v ∈ var, v ≠ name) : (blockRow keys var x f).get name = none := by
  cases var with
  | none => rfl
  | some v =>
    rw [get_blockRow_of_ne (hvar v rfl), Record.get_eq_none_iff (by simp)]
    intro hmem
    obtain ⟨k, -, rfl⟩ := List.mem_map.mp hmem
    exact hdot.ne_dotted v k rfl

/-- The names a variable brings along. -/
theorem mem_variableColumns {name : String} :
    name ∈ variableColumns keys (some v) ↔ name = v ∨ ∃ k ∈ keys, name = dotted v k := by
  simp [variableColumns, dotted, eq_comm]

end Block

/-! ## The row of a scan -/

theorem nodeRow_eq (keys : List String) (var : Option String) (node : Node) :
    (⟨nodeColumns keys var, nodeRow keys var node⟩ : Record) =
      ⟨"__node_id" :: "__labels" :: (keys ++ variableColumns keys var),
        .string node.id.uuid.toString :: .list (node.labels.toList.map fun l => .string l.name) ::
          (keys.map (propertyOrNull node.properties) ++
            (blockRow keys var (nodeValue node) (propertyOrNull node.properties)).values)⟩ := by
  simp [nodeColumns, nodeRow, blockRow]

@[simp] theorem get_nodeRow_id (keys : List String) (var : Option String) (node : Node) :
    (⟨nodeColumns keys var, nodeRow keys var node⟩ : Record).get "__node_id" =
      some (.string node.id.uuid.toString) := by
  rw [nodeRow_eq, Record.get_cons, if_pos rfl]

/-- Behind the two internal columns: the bare keys, then the block of the variable. -/
theorem get_nodeRow {name : String} (keys : List String) (var : Option String) (node : Node)
    (hid : name ≠ "__node_id") (hlabels : name ≠ "__labels") :
    (⟨nodeColumns keys var, nodeRow keys var node⟩ : Record).get name =
      (if name ∈ keys then some (propertyOrNull node.properties name) else none).or
        ((blockRow keys var (nodeValue node) (propertyOrNull node.properties)).get name) := by
  rw [nodeRow_eq, Record.get_cons, if_neg (Ne.symm hid), Record.get_cons, if_neg (Ne.symm hlabels),
    Record.get_append (by simp)]
  have hkeys := @Record.get_map (propertyOrNull node.properties) id Function.injective_id keys name
  rw [List.map_id, id_eq] at hkeys
  rw [hkeys]
  rfl

/-! ## The row of an expand step -/

section Expanded

variable (columns edgeKeys targetKeys : List String) (edgeVar targetVar : Option String)

/-- The columns of an expand step. -/
def expandColumns : List String :=
  columns ++ variableColumns edgeKeys edgeVar ++ variableColumns targetKeys targetVar

/-- A row as the expand step extends it. -/
def expandRecord (row : ExpandRow) : Record :=
  ⟨expandColumns columns edgeKeys targetKeys edgeVar targetVar,
    expandValues ((expandColumns columns edgeKeys targetKeys edgeVar targetVar).idxOf? "__node_id")
      edgeKeys targetKeys edgeVar targetVar row⟩

theorem records_expandResultSet (rows : List ExpandRow) :
    (expandResultSet columns edgeKeys targetKeys edgeVar targetVar rows).records =
      rows.map (expandRecord columns edgeKeys targetKeys edgeVar targetVar) := by
  rw [expandResultSet, ResultSet.ofRows, List.map_map]
  rfl

variable {columns edgeKeys targetKeys edgeVar targetVar} {row : ExpandRow}

/-- The source row, then the block of the edge, then the block of the target. -/
theorem get_extended (h : row.sourceValues.length = columns.length) (name : String) :
    (⟨expandColumns columns edgeKeys targetKeys edgeVar targetVar,
      expandValues none edgeKeys targetKeys edgeVar targetVar row⟩ : Record).get name =
      (((⟨columns, row.sourceValues⟩ : Record).get name).or
        ((blockRow edgeKeys edgeVar (edgeValue row.edge)
          (propertyOrNull row.edge.properties)).get name)).or
        ((blockRow targetKeys targetVar (nodeValue row.target)
          (propertyOrNull row.target.properties)).get name) := by
  have hvalues : expandValues none edgeKeys targetKeys edgeVar targetVar row =
      (row.sourceValues ++ (blockRow edgeKeys edgeVar (edgeValue row.edge)
        (propertyOrNull row.edge.properties)).values) ++
        (blockRow targetKeys targetVar (nodeValue row.target)
          (propertyOrNull row.target.properties)).values := by
    cases targetVar <;> simp [expandValues, blockRow]
  have hedge := @blockRow_length edgeKeys (edgeValue row.edge) (propertyOrNull row.edge.properties) edgeVar
  rw [hvalues, expandColumns, Record.get_append, Record.get_append h]
  · rfl
  · rw [List.length_append, List.length_append, h, hedge]
    rfl

/-- Without a variable for the target nothing is overwritten. -/
theorem expandRecord_none (h : targetVar = none) :
    expandRecord columns edgeKeys targetKeys edgeVar targetVar row =
      ⟨expandColumns columns edgeKeys targetKeys edgeVar targetVar,
        expandValues none edgeKeys targetKeys edgeVar targetVar row⟩ := by
  subst h
  rfl

/-- With one, the internal node id is that of the target. -/
theorem get_expandRecord {name : String} (h : row.sourceValues.length = columns.length)
    (hid : "__node_id" ∈ columns) :
    (expandRecord columns edgeKeys targetKeys edgeVar targetVar row).get name =
      if targetVar.isSome ∧ name = "__node_id" then some (.string row.target.id.uuid.toString)
      else (⟨expandColumns columns edgeKeys targetKeys edgeVar targetVar,
        expandValues none edgeKeys targetKeys edgeVar targetVar row⟩ : Record).get name := by
  cases htarget : targetVar with
  | none => simp [expandRecord_none]
  | some v =>
    have hmem : "__node_id" ∈ expandColumns columns edgeKeys targetKeys edgeVar (some v) :=
      List.mem_append_left _ (List.mem_append_left _ hid)
    obtain ⟨i, hi⟩ := Option.isSome_iff_exists.mp (List.isSome_idxOf?.mpr hmem)
    have hlength : (expandValues none edgeKeys targetKeys edgeVar (some v) row).length =
        (expandColumns columns edgeKeys targetKeys edgeVar (some v)).length := by
      rw [length_expandValues, h, expandColumns, List.length_append, List.length_append]
    have hset : expandRecord columns edgeKeys targetKeys edgeVar (some v) row =
        ⟨expandColumns columns edgeKeys targetKeys edgeVar (some v),
          (expandValues none edgeKeys targetKeys edgeVar (some v) row).set i
            (.string row.target.id.uuid.toString)⟩ := by
      rw [expandRecord, hi]
      rfl
    rw [hset, Record.get_set hlength hi]
    simp

/-- Every other column of the source row is kept, and the new ones are those of the two blocks. -/
theorem get_expandRecord_of_ne {name : String} (h : row.sourceValues.length = columns.length)
    (hid : "__node_id" ∈ columns) (hname : name ≠ "__node_id" ∨ targetVar = none) :
    (expandRecord columns edgeKeys targetKeys edgeVar targetVar row).get name =
      (((⟨columns, row.sourceValues⟩ : Record).get name).or
        ((blockRow edgeKeys edgeVar (edgeValue row.edge)
          (propertyOrNull row.edge.properties)).get name)).or
        ((blockRow targetKeys targetVar (nodeValue row.target)
          (propertyOrNull row.target.properties)).get name) := by
  rw [get_expandRecord h hid, if_neg, get_extended h]
  rintro ⟨hsome, rfl⟩
  rcases hname with hname | hname
  · exact hname rfl
  · rw [hname] at hsome
    cases hsome

end Expanded

end Synaptica.Exec
