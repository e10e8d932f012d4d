import Synaptica.Core.FloatOrder
import Synaptica.Exec.Expression
import Synaptica.Lib.Fallible

/-!
# Equality and the ordering operators

`=` and `<>` compare values as they are built: an integer is never equal to a float, and NULL is equal to
NULL. The four ordering operators go by `comparisonOrder`, which casts an integer to a float where the other
operand is one, and they answer NULL where an operand is NULL.

* `EqualityAgrees` — what the two families should have in common.
* `equalityAgrees_iff` — the operands for which they do.
-/

namespace Synaptica.Exec

open Gql

/-- The operator answers true. -/
def Holds (a : Value) (op : BinaryOp) (b : Value) : Prop := evalBinaryOp a op b = .ok (.bool true)

/-- The ordering operators answer with Booleans. -/
def Ordered (a b : Value) : Prop :=
  ∀ op ∈ [BinaryOp.lt, .gt, .le, .ge], ∃ t, evalBinaryOp a op b = .ok (.bool t)

structure EqualityAgrees (a b : Value) : Prop where
  antisymm : Ordered a b → (Holds a .eq b ↔ Holds a .le b ∧ Holds a .ge b)
  trichotomy : Ordered a b → ∃! op, op ∈ [BinaryOp.lt, .eq, .gt] ∧ Holds a op b
  membership : Ordered a b → evalIn a (.list [b]) = evalBinaryOp a .eq b
  nulls : a = .null ∨ b = .null → ∀ op ∈ [BinaryOp.eq, .neq], evalBinaryOp a op b = .ok .null

/-- An integer and a float that the integer is rounded to. -/
def RoundedTo : Value → Value → Prop
  | .integer i, .float f | .float f, .integer i => F64.eq (F64.ofInt64 i) f = true
  | _, _ => False

/-! ## The order of two operands -/

section Order

variable {a b : Value} {o : Ordering}

/-- What the order of two operands comes from. -/
theorem comparisonOrder_eq_some (h : comparisonOrder a b = .ok (some o)) :
    (∃ i j, a = .integer i ∧ b = .integer j ∧ compare i j = o) ∨
    (∃ x y, a = .float x ∧ b = .float y ∧ F64.partialCmp x y = some o) ∨
    (∃ i y, a = .integer i ∧ b = .float y ∧ F64.partialCmp (F64.ofInt64 i) y = some o) ∨
    (∃ x j, a = .float x ∧ b = .integer j ∧ F64.partialCmp x (F64.ofInt64 j) = some o) ∨
    ∃ s t, a = .string s ∧ b = .string t ∧ compare s t = o := by
  unfold comparisonOrder at h
  split at h
  · next i j => exact .inl ⟨i, j, rfl, rfl, by simpa using h⟩
  · next x y => exact .inr (.inl ⟨x, y, rfl, rfl, by simpa using h⟩)
  · next i y => exact .inr (.inr (.inl ⟨i, y, rfl, rfl, by simpa using h⟩))
  · next x j => exact .inr (.inr (.inr (.inl ⟨x, j, rfl, rfl, by simpa using h⟩)))
  · next s t => exact .inr (.inr (.inr (.inr ⟨s, t, rfl, rfl, by simpa using h⟩)))
  all_goals cases h

theorem evalComparison_of_order (h : comparisonOrder a b = .ok (some o)) (accepts : Ordering → Bool) :
    evalComparison a b accepts = .ok (.bool (accepts o)) := by
  rw [evalComparison, h]
  rfl

/-- The ordering operators, by the order of the operands. -/
theorem holds_of_order (h : comparisonOrder a b = .ok (some o)) :
    (Holds a .lt b ↔ o = .lt) ∧ (Holds a .gt b ↔ o = .gt) ∧ (Holds a .le b ↔ o ≠ .gt) ∧
      (Holds a .ge b ↔ o ≠ .lt) := by
  simp [Holds, evalBinaryOp, evalComparison_of_order h]

theorem ordered_iff : Ordered a b ↔ ∃ o, comparisonOrder a b = .ok (some o) := by
  constructor
  · intro h
    obtain ⟨t, ht⟩ := h .lt (by simp)
    simp only [evalBinaryOp, evalComparison, Except.bind_eq_ok] at ht
    obtain ⟨ord, hord, ht⟩ := ht
    cases ord with
    | none => cases ht
    | some o => exact ⟨o, hord⟩
  · rintro ⟨o, ho⟩ op hop
    simp only [List.mem_cons, List.not_mem_nil, or_false] at hop
    rcases hop with rfl | rfl | rfl | rfl <;>
      exact ⟨_, evalComparison_of_order ho _⟩

/-- Operands that are not rounded to one another are equal when neither is less. -/
theorem partialEq_of_order (h : comparisonOrder a b = .ok (some o)) (hround : ¬ RoundedTo a b) :
    a.partialEq b = true ↔ o = .eq := by
  rcases comparisonOrder_eq_some h with ⟨i, j, rfl, rfl, rfl⟩ | ⟨x, y, rfl, rfl, ho⟩ |
    ⟨i, y, rfl, rfl, ho⟩ | ⟨x, j, rfl, rfl, ho⟩ | ⟨s, t, rfl, rfl, rfl⟩
  · rw [Value.partialEq, beq_iff_eq]
    exact Std.LawfulEqOrd.compare_eq_iff_eq.symm
  · rw [Value.partialEq, ← F64.partialCmp_eq_eq, ho, Option.some.injEq]
  · -- an integer and a float are never equal
    refine iff_of_false (by simp [Value.partialEq]) ?_
    rintro rfl
    exact hround (F64.partialCmp_eq_eq.mp ho)
  · refine iff_of_false (by simp [Value.partialEq]) ?_
    rintro rfl
    apply hround
    show F64.eq (F64.ofInt64 j) x = true
    rw [F64.eq_comm]
    exact F64.partialCmp_eq_eq.mp ho
  · rw [Value.partialEq, beq_iff_eq]
    exact Std.LawfulEqOrd.compare_eq_iff_eq.symm

/-- Of operands with an order it does not matter which one comes first. -/
theorem partialEq_comm_of_order (h : comparisonOrder a b = .ok (some o)) :
    b.partialEq a = a.partialEq b := by
  rcases comparisonOrder_eq_some h with ⟨i, j, rfl, rfl, -⟩ | ⟨x, y, rfl, rfl, -⟩ |
    ⟨i, y, rfl, rfl, -⟩ | ⟨x, j, rfl, rfl, -⟩ | ⟨s, t, rfl, rfl, -⟩
  · exact Bool.beq_comm
  · exact F64.eq_comm y x
  · rfl
  · rfl
  · exact Bool.beq_comm

/-- An integer and the float it is rounded to are in order, and not equal. -/
theorem RoundedTo.order (h : RoundedTo a b) :
    comparisonOrder a b = .ok (some .eq) ∧ a.partialEq b = false := by
  unfold RoundedTo at h
  split at h
  · next i f =>
    rw [comparisonOrder, F64.partialCmp_eq_eq.mpr h]
    exact ⟨rfl, rfl⟩
  · next f i =>
    rw [F64.eq_comm] at h
    rw [comparisonOrder, F64.partialCmp_eq_eq.mpr h]
    exact ⟨rfl, rfl⟩
  · exact h.elim

end Order

/-! ## When the two families agree -/

/-- The operator that asks for an order. -/
def askingFor : Ordering → BinaryOp
  | .lt => .lt
  | .eq => .eq
  | .gt => .gt

theorem existsUnique_of_order {a b : Value} {o : Ordering} (h : comparisonOrder a b = .ok (some o))
    (heq : Holds a .eq b ↔ o = .eq) : ∃! op, op ∈ [BinaryOp.lt, .eq, .gt] ∧ Holds a op b := by
  obtain ⟨hlt, hgt, -, -⟩ := holds_of_order h
  refine ⟨askingFor o, ?_, ?_⟩
  · cases o <;> simp [askingFor, hlt, hgt, heq]
  · rintro op ⟨hop, hholds⟩
    simp only [List.mem_cons, List.not_mem_nil, or_false] at hop
    rcases hop with rfl | rfl | rfl
    · rw [hlt.mp hholds, askingFor]
    · rw [heq.mp hholds, askingFor]
    · rw [hgt.mp hholds, askingFor]

theorem EqualityAgrees.not_null {a b : Value} (h : EqualityAgrees a b) : a ≠ .null ∧ b ≠ .null := by
  rw [← not_or]
  intro hnull
  have heq := h.nulls hnull .eq (by simp)
  cases heq

theorem EqualityAgrees.not_roundedTo {a b : Value} (h : EqualityAgrees a b) : ¬ RoundedTo a b := by
  intro hround
  obtain ⟨horder, hne⟩ := hround.order
  obtain ⟨-, -, hle, hge⟩ := holds_of_order horder
  have heq := (h.antisymm (ordered_iff.mpr ⟨_, horder⟩)).mpr ⟨hle.mpr (by simp), hge.mpr (by simp)⟩
  simp [Holds, evalBinaryOp, hne] at heq

/-- **Equality and the ordering operators agree** on two values exactly when neither is NULL and they are no
integer and float of which one is rounded to the other. -/
theorem equalityAgrees_iff (a b : Value) :
    EqualityAgrees a b ↔ a ≠ .null ∧ b ≠ .null ∧ ¬ RoundedTo a b := by
  constructor
  · intro h
    exact ⟨h.not_null.1, h.not_null.2, h.not_roundedTo⟩
  · rintro ⟨ha, hb, hround⟩
    have heq : ∀ {o}, comparisonOrder a b = .ok (some o) → (Holds a .eq b ↔ o = .eq) := by
      intro o ho
      rw [← partialEq_of_order ho hround]
      simp [Holds, evalBinaryOp]
    constructor
    · intro hordered
      obtain ⟨o, ho⟩ := ordered_iff.mp hordered
      obtain ⟨-, -, hle, hge⟩ := holds_of_order ho
      rw [heq ho, hle, hge]
      cases o <;> simp
    · intro hordered
      obtain ⟨o, ho⟩ := ordered_iff.mp hordered
      exact existsUnique_of_order ho (heq ho)
    · intro hordered
      obtain ⟨o, ho⟩ := ordered_iff.mp hordered
      simp [evalIn, evalBinaryOp, partialEq_comm_of_order ho]
    · rintro (hnull | hnull)
      · exact absurd hnull ha
      · exact absurd hnull hb

/-- The integer 1 and the float 1.0 are neither less, equal nor greater; NULL is equal to NULL. -/
theorem not_equalityAgrees :
    ¬ EqualityAgrees (.integer 1) (.float 0x3FF0000000000000) ∧ ¬ EqualityAgrees .null .null := by
  constructor
  · intro h
    apply h.not_roundedTo
    show F64.eq (F64.ofInt64 1) 0x3FF0000000000000 = true
    decide
  · intro h
    exact h.not_null.1 rfl

end Synaptica.Exec
