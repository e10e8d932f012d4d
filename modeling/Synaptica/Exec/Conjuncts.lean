import Synaptica.Exec.PropertyAccess
import Synaptica.Lib.ShortCircuit
import Synaptica.Storage.ValueKeys

/-!
# The conjuncts of a filter

`try_index_scan` takes the conjuncts of a filter apart: equalities that an index serves, equalities that
it does not, and the rest. The served ones become lookup values, and what is left is put together again
in another order. `AND` skips its right side when the left one is false, so that an evaluation that
succeeded in one order need not succeed in another; it does on the rows an index scan finds, because the
served equalities are true there (`remaining_answers`).

A predicate on the variable of a scan is evaluated as if the row held nothing but the node
(`evaluate_nodeRow`), so that the columns that two scans make do not matter.
-/

namespace Synaptica.Exec

open Gql Storage
open ShortCircuit (Guarded)

variable {env : Env} {r : Record}

/-! ## Trees of AND -/

/-- The leaves of a tree of `AND`s. -/
def conjuncts : Expression → List Expression
  | .binaryOp left .and right => conjuncts left ++ conjuncts right
  | expr => [expr]

theorem evaluate_and (left right : Expression) : evaluate env r (.binaryOp left .and right) =
    (evaluate env r left >>= fun lv =>
      if lv = .bool false then .ok (.bool false) else evaluate env r right >>= fun rv =>
        .ok (evalAnd lv rv)) := by
  rw [evaluate]
  rfl

theorem evalAnd_eq_false {lv rv : Value} (h : lv ≠ .bool false) :
    evalAnd lv rv = .bool false ↔ rv = .bool false := by
  unfold evalAnd
  split
  · next hrv => simp [hrv]
  · next hrv => split <;> simp [hrv]

theorem evalAnd_eq_true {lv rv : Value} :
    evalAnd lv rv = .bool true ↔ lv = .bool true ∧ rv = .bool true := by
  unfold evalAnd
  split
  · next hrv => simp [hrv]
  · split
    · next hboth => simp [hboth]
    · next hboth => simp [hboth]

/-- What a tree of `AND`s answers: it answers when reading its conjuncts does, false when one of them is
false, and true when all of them are true. -/
structure Conjoins (env : Env) (r : Record) (es : List Expression) (e : Expression) : Prop where
  guarded : Guarded (evaluate env r) (.bool false) es ↔ ∃ x, evaluate env r e = .ok x
  eq_false : ∀ x, evaluate env r e = .ok x →
    (x = .bool false ↔ ∃ c ∈ es, evaluate env r c = .ok (.bool false))
  eq_true : evaluate env r e = .ok (.bool true) ↔ ∀ c ∈ es, evaluate env r c = .ok (.bool true)

theorem conjoins_self (e : Expression) : Conjoins env r [e] e where
  guarded := ShortCircuit.guarded_singleton
  eq_false x hx := by simp [hx]
  eq_true := by simp

theorem Conjoins.and {es fs : List Expression} {left right : Expression} (hl : Conjoins env r es left)
    (hr : Conjoins env r fs right) : Conjoins env r (es ++ fs) (.binaryOp left .and right) := by
  cases hleft : evaluate env r left with
  | error err =>
    have hfails : evaluate env r (.binaryOp left .and right) = .error err := by
      rw [evaluate_and, hleft]
      rfl
    refine ⟨?_, fun x hx => ?_, ?_⟩
    · rw [ShortCircuit.guarded_append, hl.guarded, hleft, hfails]
      simp
    · cases hfails.symm.trans hx
    · rw [List.forall_mem_append, ← hl.eq_true, hleft, hfails]
      simp
  | ok lv =>
    have hes := hl.guarded.mpr ⟨lv, hleft⟩
    have hfalse := hl.eq_false lv hleft
    by_cases hlv : lv = .bool false
    · -- the right side is skipped
      have hstops : evaluate env r (.binaryOp left .and right) = .ok (.bool false) := by
        rw [evaluate_and, hleft, Except.ok_bind, if_pos hlv]
      obtain ⟨c, hc, hcfalse⟩ := hfalse.mp hlv
      refine ⟨?_, fun x hx => ?_, ?_⟩
      · rw [ShortCircuit.guarded_append, hstops]
        exact iff_of_true ⟨hes, fun hnone => absurd hcfalse (hnone c hc)⟩ ⟨_, rfl⟩
      · cases hstops.symm.trans hx
        exact iff_of_true rfl ⟨c, List.mem_append_left _ hc, hcfalse⟩
      · rw [List.forall_mem_append, ← hl.eq_true, hleft, hstops, hlv]
        simp
    · have hgoes : evaluate env r (.binaryOp left .and right) =
          (evaluate env r right).map (evalAnd lv) := by
        rw [evaluate_and, hleft, Except.ok_bind, if_neg hlv]
        cases evaluate env r right <;> rfl
      have hnone : ∀ c ∈ es, evaluate env r c ≠ .ok (.bool false) := fun c hc hcfalse =>
        hlv (hfalse.mpr ⟨c, hc, hcfalse⟩)
      have hsplit : Guarded (evaluate env r) (.bool false) (es ++ fs) ↔
          ∃ x, evaluate env r right = .ok x := by
        rw [ShortCircuit.guarded_append, ← hr.guarded]
        exact ⟨fun h => h.2 hnone, fun h => ⟨hes, fun _ => h⟩⟩
      refine ⟨?_, fun x hx => ?_, ?_⟩
      · rw [hsplit, hgoes]
        cases evaluate env r right <;> simp [Except.map]
      · cases hright : evaluate env r right with
        | error err =>
          rw [hgoes, hright] at hx
          cases hx
        | ok rv =>
          rw [hgoes, hright] at hx
          cases hx
          rw [evalAnd_eq_false hlv, hr.eq_false rv hright]
          constructor
          · rintro ⟨c, hc, hcfalse⟩
            exact ⟨c, List.mem_append_right _ hc, hcfalse⟩
          · rintro ⟨c, hc, hcfalse⟩
            rcases List.mem_append.mp hc with hc | hc
            · exact absurd hcfalse (hnone c hc)
            · exact ⟨c, hc, hcfalse⟩
      · rw [List.forall_mem_append, ← hl.eq_true, ← hr.eq_true, hleft, hgoes]
        cases evaluate env r right <;> simp [Except.map, evalAnd_eq_true]

/-- A predicate is the tree of its conjuncts. -/
theorem conjoins_conjuncts (e : Expression) : Conjoins env r (conjuncts e) e := by
  induction e using conjuncts.induct with
  | case1 left right ihl ihr =>
    rw [conjuncts]
    exact ihl.and ihr
  | case2 expr hne =>
    rw [conjuncts]
    · exact conjoins_self expr
    · exact hne

theorem Conjoins.foldl {es : List Expression} {e : Expression} (h : Conjoins env r es e)
    (fs : List Expression) :
    Conjoins env r (es ++ fs) (fs.foldl (fun a b => .binaryOp a .and b) e) := by
  induction fs generalizing es e with
  | nil => simpa using h
  | cons f fs ih =>
    have hstep := ih (h.and (conjoins_self f))
    rwa [List.append_assoc] at hstep

/-- Folding conjuncts makes a tree of them. -/
theorem conjoins_conjunction {es : List Expression} {e : Expression} (h : conjunction es = some e) :
    Conjoins env r es e := by
  cases es with
  | nil => cases h
  | cons first rest =>
    cases h
    exact (conjoins_self first).foldl rest

/-! ## Predicates on the variable of a scan -/

/-- No column but the one of the variable's property has this name: it has no dot, is not internal, and
is not the variable. -/
structure TidyName (v name : String) : Prop where
  dotFree : DotFree name
  notInternal : ¬ ("__".toList <+: name.toList)
  ne : name ≠ v

/-- Property accesses `v.p`, literals, comparisons and connectives. -/
inductive IsPredicate (v : String) : Expression → Prop
  | literal (lit : Literal) : IsPredicate v (.literal lit)
  | property {p : String} : TidyName v p → IsPredicate v (.propertyAccess (.identifier v) p)
  | binary (op : BinaryOp) {left right : Expression} : IsPredicate v left → IsPredicate v right →
    IsPredicate v (.binaryOp left op right)
  | not {operand : Expression} : IsPredicate v operand → IsPredicate v (.unaryOp .not operand)

/-- A row that holds nothing but a node. -/
def boundTo (v : String) (n : Node) : Record := ⟨[v], [nodeValue n]⟩

/-- Only the properties of the variable are read. -/
theorem evaluate_congr {v : String} {r' : Record} {e : Expression} (he : IsPredicate v e)
    (h : ∀ p, TidyName v p → evaluate env r (.propertyAccess (.identifier v) p) =
      evaluate env r' (.propertyAccess (.identifier v) p)) : evaluate env r e = evaluate env r' e := by
  induction he with
  | literal lit => rw [evaluate, evaluate]
  | property hp => exact h _ hp
  | binary op _ _ ihl ihr =>
    rw [evaluate, evaluate, ihl, ihr]
  | not _ ih => rw [evaluate, evaluate, ih]

theorem evaluate_boundTo {v p : String} (hp : TidyName v p) (n : Node) :
    evaluate env (boundTo v n) (.propertyAccess (.identifier v) p) =
      .ok (propertyOrNull n.properties p) := by
  have hcolumn : propertyColumn (boundTo v n) (.identifier v) p = none := by
    have hdotted : (boundTo v n).get (dotted v p) = none := by
      rw [boundTo, Record.get_cons, if_neg (ne_dotted_self v p)]
      rfl
    have hbare : (boundTo v n).get p = none := by
      rw [boundTo, Record.get_cons, if_neg hp.ne.symm]
      rfl
    show ((boundTo v n).get (dotted v p)).or ((boundTo v n).get p) = none
    rw [hdotted, hbare]
    rfl
  have hself : (boundTo v n).get v = some (nodeValue n) := by
    rw [boundTo, Record.get_cons, if_pos rfl]
  rw [evaluate, hcolumn]
  dsimp only
  rw [evaluate, hself, ← propertyOf_nodeValue]
  rfl

theorem TidyName.ne_internal {v p : String} (hp : TidyName v p) :
    p ≠ "__node_id" ∧ p ≠ "__labels" := by
  constructor <;> rintro rfl <;> exact hp.notInternal (by decide)

/-- **The columns do not matter**: on the row that a scan makes of a node, a predicate is evaluated as on
the node alone. -/
theorem evaluate_nodeRow {v : String} {keys : List String} {n : Node} {e : Expression}
    (he : IsPredicate v e) (hkeys : ∀ k ∈ keys, TidyName v k) (hn : ∀ k ∈ n.properties, k ∈ keys) :
    evaluate env ⟨nodeColumns keys (some v), nodeRow keys (some v) n⟩ e =
      evaluate env (boundTo v n) e := by
  refine evaluate_congr he fun p hp => ?_
  rw [evaluate_boundTo hp]
  set row : Record := ⟨nodeColumns keys (some v), nodeRow keys (some v) n⟩
  have hinternal : ∀ name : String, DotFree name → dotted v p ≠ name := fun name hname h =>
    hname.ne_dotted v p h.symm
  have hdotted : row.get (dotted v p) =
      if p ∈ keys then some (propertyOrNull n.properties p) else none := by
    rw [get_nodeRow keys (some v) n (hinternal _ (by decide)) (hinternal _ (by decide)),
      if_neg fun hmem => hinternal _ (hkeys _ hmem).dotFree rfl, Option.none_or, get_blockRow_dotted]
  have hcolumn : propertyColumn row (.identifier v) p = (row.get (dotted v p)).or (row.get p) := rfl
  rw [evaluate, hcolumn, hdotted]
  by_cases hmem : p ∈ keys
  · rw [if_pos hmem]
    rfl
  · -- neither `v.p` nor `p` is a column, and what `v` is bound to has no such property
    have hbare : row.get p = none := by
      rw [get_nodeRow keys (some v) n hp.ne_internal.1 hp.ne_internal.2, if_neg hmem, Option.none_or,
        get_blockRow_of_dotFree hp.dotFree]
      rintro u hu rfl
      cases hu
      exact hp.ne rfl
    have hnull : propertyOrNull n.properties p = .null := by
      rw [propertyOrNull, Std.ExtTreeMap.getElem?_eq_none fun h => hmem (hn p h)]
      rfl
    obtain ⟨x, hx, hprop⟩ : ∃ x, row.get v = some x ∧ propertyOf x p = .null := by
      by_cases hid : v = "__node_id"
      · subst hid
        refine ⟨.string n.id.uuid.toString, get_nodeRow_id keys _ n, ?_⟩
        rfl
      · by_cases hlabels : v = "__labels"
        · subst hlabels
          refine ⟨.list (n.labels.toList.map fun l => .string l.name), ?_, rfl⟩
          show (⟨nodeColumns keys _, nodeRow keys _ n⟩ : Record).get "__labels" = _
          rw [nodeRow_eq, Record.get_cons, if_neg (by decide), Record.get_cons, if_pos rfl]
        · refine ⟨nodeValue n, ?_, by rw [propertyOf_nodeValue, hnull]⟩
          rw [get_nodeRow keys (some v) n hid hlabels, if_neg fun hv => (hkeys v hv).ne rfl,
            Option.none_or, get_blockRow_self]
    rw [if_neg hmem, hbare, Option.or_none]
    dsimp only
    rw [evaluate, hx, hnull, ← hprop]
    rfl

/-! ## Served equalities -/

/-- The property and the literal of a conjunct that an index could serve. -/
def servedEq (v : String) : Expression → Option (String × Expression)
  | .binaryOp left .eq right => eqPredicate (some v) left right
  | _ => none

/-- The equalities are taken out of the conjuncts, and the others keep their order. -/
theorem extractEqPredicates_eq (v : String) (e : Expression) : extractEqPredicates (some v) e =
    ((conjuncts e).filterMap (servedEq v), (conjuncts e).filter fun c => (servedEq v c).isNone) := by
  induction e using extractEqPredicates.induct (some v) with
  | case1 left right ihl ihr =>
    rw [extractEqPredicates, conjuncts, List.filterMap_append, List.filter_append, ihl, ihr]
  | case2 left right p hp =>
    have hserved : servedEq v (.binaryOp left .eq right) = some p := hp
    simp [extractEqPredicates, conjuncts, hp, hserved]
  | case3 left right hp =>
    have hserved : servedEq v (.binaryOp left .eq right) = none := hp
    simp [extractEqPredicates, conjuncts, hp, hserved]
  | case4 expr hand heq =>
    have hserved : servedEq v expr = none := by
      unfold servedEq
      split
      · exact absurd rfl (heq _ _)
      · rfl
    rw [extractEqPredicates, conjuncts]
    · simp [hserved]
    · exact hand
    · exact hand
    · exact heq

/-- Booleans, integers and strings: what an equality looks up. -/
def isLookupValue : Value → Bool
  | .bool _ | .integer _ | .string _ => true
  | _ => false

theorem isKeyValue_of_isLookupValue {v : Value} (h : isLookupValue v) : isKeyValue v := by
  cases v <;> first | rfl | cases h

/-- The value of a string, an integer or a boolean. -/
def literalValue : Expression → Value
  | .literal (.string s) => .string s
  | .literal (.integer i) => .integer i
  | .literal (.bool b) => .bool b
  | _ => .null

theorem evaluate_of_isLookupValue {val : Expression} (h : isLookupValue (literalValue val)) :
    evaluate env r val = .ok (literalValue val) := by
  unfold literalValue at h ⊢
  split at h
  · rw [evaluate]; rfl
  · rw [evaluate]; rfl
  · rw [evaluate]; rfl
  · cases h

theorem partialEq_lookupValue {x w : Value} (hw : isLookupValue w) :
    x.partialEq w = decide (x = w) ∧ w.partialEq x = decide (x = w) := by
  cases w with
  | bool | integer | string => cases x <;> simp [Value.partialEq, beq_eq_decide, eq_comm]
  | _ => cases hw

theorem extractPropertyName_of_isPredicate {v p : String} {e : Expression} (he : IsPredicate v e)
    (h : extractPropertyName (some v) e = some p) :
    TidyName v p ∧ e = .propertyAccess (.identifier v) p := by
  cases he with
  | property hp =>
    simp only [extractPropertyName, Option.all_some, beq_self_eq_true, if_true, Option.some.injEq] at h
    subst h
    exact ⟨hp, rfl⟩
  | _ => cases h

/-- The property of the node has the value of the literal. -/
def HasValue (n : Node) (e : String × Expression) : Prop := propertyOrNull n.properties e.1 = literalValue e.2

instance (n : Node) (e : String × Expression) : Decidable (HasValue n e) := inferInstanceAs (Decidable (_ = _))

/-- A served equality has the property on one side and the literal on the other. -/
theorem servedEq_cases {v : String} {c : Expression} {e : String × Expression} (hc : IsPredicate v c)
    (h : servedEq v c = some e) : TidyName v e.1 ∧ (∃ lit, e.2 = .literal lit) ∧
      (c = .binaryOp (.propertyAccess (.identifier v) e.1) .eq e.2 ∨
        c = .binaryOp e.2 .eq (.propertyAccess (.identifier v) e.1)) := by
  have hliteral : ∀ val, isLiteralExpr val → ∃ lit, val = .literal lit := by
    intro val hval
    cases val with
    | literal lit => exact ⟨lit, rfl⟩
    | _ => cases hval
  unfold servedEq at h
  split at h
  · rename_i left right
    obtain ⟨hleft, hright⟩ : IsPredicate v left ∧ IsPredicate v right := by
      cases hc with
      | binary op hl hr => exact ⟨hl, hr⟩
    have hflipped : isLiteralExpr left → (extractPropertyName (some v) right).map (·, left) = some e →
        TidyName v e.1 ∧ (∃ lit, e.2 = .literal lit) ∧ .binaryOp left .eq right =
          Expression.binaryOp e.2 .eq (.propertyAccess (.identifier v) e.1) := by
      intro hlit hname
      obtain ⟨prop, hprop, rfl⟩ := Option.map_eq_some_iff.mp hname
      obtain ⟨htidy, rfl⟩ := extractPropertyName_of_isPredicate hright hprop
      exact ⟨htidy, hliteral left hlit, rfl⟩
    unfold eqPredicate at h
    split at h
    · next prop hprop =>
      split at h
      · next hlit =>
        cases h
        obtain ⟨htidy, rfl⟩ := extractPropertyName_of_isPredicate hleft hprop
        exact ⟨htidy, hliteral right hlit, .inl rfl⟩
      · split at h
        · next hlit => exact (hflipped hlit h).imp_right fun hrest => hrest.imp_right .inr
        · cases h
    · split at h
      · next hlit => exact (hflipped hlit h).imp_right fun hrest => hrest.imp_right .inr
      · cases h
  · cases h

/-- A served equality compares the property of the node with the value of the literal. -/
theorem evaluate_served {v : String} {n : Node} {c : Expression} {e : String × Expression}
    (hc : IsPredicate v c) (hserved : servedEq v c = some e) (he : isLookupValue (literalValue e.2)) :
    evaluate env (boundTo v n) c = .ok (.bool (decide (HasValue n e))) := by
  have hvalue := partialEq_lookupValue (x := propertyOrNull n.properties e.1) he
  obtain ⟨htidy, -, rfl | rfl⟩ := servedEq_cases hc hserved
  · rw [evaluate, evaluate_boundTo htidy, evaluate_of_isLookupValue he]
    exact congrArg (fun b => Except.ok (Value.bool b)) hvalue.1
  · rw [evaluate, evaluate_of_isLookupValue he, Except.ok_bind]
    dsimp only
    rw [evaluate_boundTo htidy]
    exact congrArg (fun b => Except.ok (Value.bool b)) hvalue.2

/-- An equality that is put back compares the same. -/
theorem evaluate_rebuildEqPredicate {v : String} {n : Node} {e : String × Expression}
    (htidy : TidyName v e.1) (he : isLookupValue (literalValue e.2)) :
    evaluate env (boundTo v n) (rebuildEqPredicate (some v) e.1 e.2) =
      .ok (.bool (decide (HasValue n e))) := by
  have hvalue := partialEq_lookupValue (x := propertyOrNull n.properties e.1) he
  rw [rebuildEqPredicate, evaluate, evaluate_boundTo htidy, evaluate_of_isLookupValue he]
  exact congrArg (fun b => Except.ok (Value.bool b)) hvalue.1

/-- A predicate that an index can be used for: the literals of its top-level equalities are strings,
integers or booleans. -/
structure Indexable (v : String) (predicate : Expression) : Prop where
  isPredicate : IsPredicate v predicate
  literals : ∀ c ∈ conjuncts predicate, ∀ e, servedEq v c = some e → isLookupValue (literalValue e.2)

theorem IsPredicate.of_mem_conjuncts {v : String} {predicate : Expression} (h : IsPredicate v predicate)
    {c : Expression} (hc : c ∈ conjuncts predicate) : IsPredicate v c := by
  induction predicate using conjuncts.induct with
  | case1 left right ihl ihr =>
    cases h with
    | binary op hl hr =>
      rw [conjuncts] at hc
      rcases List.mem_append.mp hc with hc | hc
      · exact ihl hl hc
      · exact ihr hr hc
  | case2 expr hne =>
    rw [conjuncts] at hc
    · rwa [List.mem_singleton.mp hc]
    · exact hne

/-! ## What is left of a filter -/

section Remaining

variable {v : String} {predicate : Expression} {n : Node} {unused : List (String × Expression)}

/-- The parts of the remaining predicate: unserved equalities, then the other conjuncts. -/
def remainingParts (v : String) (predicate : Expression) (unused : List (String × Expression)) :
    List Expression :=
  unused.map (fun e => rebuildEqPredicate (some v) e.1 e.2) ++
    (conjuncts predicate).filter fun c => (servedEq v c).isNone

/-- **The remaining predicate answers** on a node that meets the served equalities, when the whole one
does, and it is true of the same nodes. -/
theorem remaining_answers (h : Indexable v predicate)
    (hunused : ∀ e ∈ unused, e ∈ (conjuncts predicate).filterMap (servedEq v))
    (hrest : ∀ e ∈ (conjuncts predicate).filterMap (servedEq v), e ∈ unused ∨ HasValue n e) {x : Value}
    (hx : evaluate env (boundTo v n) predicate = .ok x) :
    Guarded (evaluate env (boundTo v n)) (.bool false) (remainingParts v predicate unused) ∧
      ((∀ c ∈ remainingParts v predicate unused, evaluate env (boundTo v n) c = .ok (.bool true)) ↔
        x = .bool true) := by
  have htree := @conjoins_conjuncts env (boundTo v n) predicate
  have hserved : ∀ c ∈ conjuncts predicate, ∀ e, servedEq v c = some e →
      evaluate env (boundTo v n) c = .ok (.bool (decide (HasValue n e))) := fun c hc e he =>
    evaluate_served (h.isPredicate.of_mem_conjuncts hc) he (h.literals c hc e he)
  have hrebuilt : ∀ e ∈ unused, evaluate env (boundTo v n) (rebuildEqPredicate (some v) e.1 e.2) =
      .ok (.bool (decide (HasValue n e))) := by
    intro e he
    obtain ⟨c, hc, hce⟩ := List.mem_filterMap.mp (hunused e he)
    have htidy := (servedEq_cases (h.isPredicate.of_mem_conjuncts hc) hce).1
    exact evaluate_rebuildEqPredicate htidy (h.literals c hc e hce)
  constructor
  · rw [remainingParts, ShortCircuit.guarded_append]
    refine ⟨ShortCircuit.guarded_of_forall fun c hc => ?_, fun hstop => ?_⟩
    · obtain ⟨e, he, rfl⟩ := List.mem_map.mp hc
      exact ⟨_, hrebuilt e he⟩
    · -- no equality stops the evaluation, so the other conjuncts are reached as before
      refine (htree.guarded.mpr ⟨x, hx⟩).filter fun c hc hsome hfalse => ?_
      obtain ⟨e, he⟩ := Option.isSome_iff_exists.mp (by simpa using hsome : (servedEq v c).isSome)
      have hvalue : HasValue n e := by
        rcases hrest e (List.mem_filterMap.mpr ⟨c, hc, he⟩) with hmem | hvalue
        · by_contra hnot
          refine hstop _ (List.mem_map_of_mem hmem) ?_
          rw [hrebuilt e hmem, decide_eq_false hnot]
        · exact hvalue
      rw [hserved c hc e he, decide_eq_true hvalue] at hfalse
      cases hfalse
  · have htrue : x = .bool true ↔ evaluate env (boundTo v n) predicate = .ok (.bool true) := by
      rw [hx]
      simp
    rw [htrue, htree.eq_true, remainingParts, List.forall_mem_append]
    constructor
    · rintro ⟨hequalities, hothers⟩ c hc
      cases hce : servedEq v c with
      | none => exact hothers c (List.mem_filter.mpr ⟨hc, by simp [hce]⟩)
      | some e =>
        rw [hserved c hc e hce]
        rcases hrest e (List.mem_filterMap.mpr ⟨c, hc, hce⟩) with hmem | hvalue
        · rw [← hrebuilt e hmem]
          exact hequalities _ (List.mem_map_of_mem hmem)
        · rw [decide_eq_true hvalue]
    · intro hall
      refine ⟨fun c hc => ?_, fun c hc => hall c (List.mem_of_mem_filter hc)⟩
      obtain ⟨e, he, rfl⟩ := List.mem_map.mp hc
      obtain ⟨c, hc, hce⟩ := List.mem_filterMap.mp (hunused e he)
      rw [hrebuilt e he, ← hserved c hc e hce]
      exact hall c hc

theorem isPredicate_conjunction {parts : List Expression} (h : ∀ c ∈ parts, IsPredicate v c)
    {e : Expression} (he : conjunction parts = some e) : IsPredicate v e := by
  have hfold : ∀ (rest : List Expression) (first : Expression), IsPredicate v first →
      (∀ c ∈ rest, IsPredicate v c) → IsPredicate v (rest.foldl (fun a b => .binaryOp a .and b) first) := by
    intro rest
    induction rest with
    | nil => exact fun first hfirst _ => hfirst
    | cons c rest ih =>
      intro first hfirst hall
      obtain ⟨hc, hrest⟩ := List.forall_mem_cons.mp hall
      exact ih _ (.binary .and hfirst hc) hrest
  cases parts with
  | nil => cases he
  | cons first rest =>
    cases he
    obtain ⟨hfirst, hrest⟩ := List.forall_mem_cons.mp h
    exact hfold rest first hfirst hrest

theorem isPredicate_remainingParts (h : Indexable v predicate)
    (hunused : ∀ e ∈ unused, e ∈ (conjuncts predicate).filterMap (servedEq v)) :
    ∀ c ∈ remainingParts v predicate unused, IsPredicate v c := by
  intro c hc
  rcases List.mem_append.mp hc with hc | hc
  · obtain ⟨e, he, rfl⟩ := List.mem_map.mp hc
    obtain ⟨c, hc, hce⟩ := List.mem_filterMap.mp (hunused e he)
    obtain ⟨htidy, ⟨lit, hlit⟩, -⟩ := servedEq_cases (h.isPredicate.of_mem_conjuncts hc) hce
    rw [rebuildEqPredicate, hlit]
    exact .binary .eq (.property htidy) (.literal lit)
  · exact h.isPredicate.of_mem_conjuncts (List.mem_of_mem_filter hc)

/-- A true predicate meets its equalities. -/
theorem hasValue_of_true (h : Indexable v predicate)
    (hx : evaluate env (boundTo v n) predicate = .ok (.bool true)) {e : String × Expression}
    (he : e ∈ (conjuncts predicate).filterMap (servedEq v)) : HasValue n e := by
  obtain ⟨c, hc, hce⟩ := List.mem_filterMap.mp he
  have htrue := conjoins_conjuncts predicate |>.eq_true.mp hx c hc
  rw [evaluate_served (h.isPredicate.of_mem_conjuncts hc) hce (h.literals c hc e hce)] at htrue
  simpa using htrue

end Remaining

end Synaptica.Exec
