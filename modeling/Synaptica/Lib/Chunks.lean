import Mathlib

/-!
# Cutting a list into chunks

`chunks size xs` cuts a list into pieces of `size` elements, the last one taking what is left. The
pieces glue together again (`flatten_chunks`); none is empty and none is too long; and the number of
a piece decides whether another one follows (`lt_length_chunks_iff`), so that the last piece is
recognized by arithmetic alone.
-/

namespace Chunks

variable {α : Type*}

/-- Consecutive pieces of `size` elements, for a positive size. -/
def chunks (size : Nat) : List α → List (List α)
  | [] => []
  | x :: xs => (x :: xs.take (size - 1)) :: chunks size (xs.drop (size - 1))
termination_by xs => xs.length
decreasing_by
  simp only [List.length_drop, List.length_cons]
  omega

@[simp] theorem chunks_nil (size : Nat) : chunks size ([] : List α) = [] := by
  rw [chunks]

theorem chunks_cons (size : Nat) (x : α) (xs : List α) :
    chunks size (x :: xs) = (x :: xs.take (size - 1)) :: chunks size (xs.drop (size - 1)) := by
  rw [chunks]

/-- The pieces glue together again. -/
@[simp] theorem flatten_chunks (size : Nat) (xs : List α) : (chunks size xs).flatten = xs := by
  induction xs using chunks.induct size with
  | case1 => simp
  | case2 x xs ih => rw [chunks_cons, List.flatten_cons, ih, List.cons_append, List.take_append_drop]

theorem ne_nil_of_mem_chunks {size : Nat} {xs c : List α} (h : c ∈ chunks size xs) : c ≠ [] := by
  induction xs using chunks.induct size with
  | case1 => simp at h
  | case2 x xs ih =>
    rw [chunks_cons] at h
    rcases List.mem_cons.mp h with rfl | htail
    · exact List.cons_ne_nil _ _
    · exact ih htail

theorem length_le_of_mem_chunks {size : Nat} (hsize : 0 < size) {xs c : List α}
    (h : c ∈ chunks size xs) : c.length ≤ size := by
  induction xs using chunks.induct size with
  | case1 => simp at h
  | case2 x xs ih =>
    rw [chunks_cons] at h
    rcases List.mem_cons.mp h with rfl | htail
    · simp only [List.length_cons, List.length_take]
      omega
    · exact ih htail

/-- There is a piece of number `i` exactly when elements are left for it. -/
theorem lt_length_chunks_iff {size : Nat} (hsize : 0 < size) {xs : List α} {i : Nat} :
    i < (chunks size xs).length ↔ i * size < xs.length := by
  induction xs using chunks.induct size generalizing i with
  | case1 => simp
  | case2 x xs ih =>
    rw [chunks_cons, List.length_cons, List.length_cons]
    cases i with
    | zero => simp
    | succ i =>
      have hih := @ih i
      rw [List.length_drop] at hih
      rw [Nat.succ_mul]
      omega

/-- Piece number `i` begins with element number `i * size`. -/
theorem head?_getElem?_chunks {size : Nat} (hsize : 0 < size) (xs : List α) (i : Nat) :
    ((chunks size xs)[i]?).bind List.head? = xs[i * size]? := by
  induction xs using chunks.induct size generalizing i with
  | case1 => simp
  | case2 x xs ih =>
    rw [chunks_cons]
    cases i with
    | zero => simp
    | succ i =>
      have hnumber : (i + 1) * size = (size - 1 + i * size) + 1 := by
        rw [Nat.succ_mul]
        omega
      rw [List.getElem?_cons_succ, ih, List.getElem?_drop, hnumber, List.getElem?_cons_succ]

/-- The end of a piece stays within twice the length of the list, or within one piece. -/
theorem end_le {size : Nat} {xs : List α} {i : Nat} (hi : i * size < xs.length) :
    (i + 1) * size ≤ max size (2 * xs.length) := by
  cases i with
  | zero => simp
  | succ i =>
    have hle : size ≤ (i + 1) * size := Nat.le_mul_of_pos_left size (Nat.succ_pos i)
    rw [Nat.succ_mul (i + 1)]
    omega

end Chunks
