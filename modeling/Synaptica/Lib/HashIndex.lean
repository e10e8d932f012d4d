import Mathlib
import Std.Data.HashMap.Lemmas

/-!
# Hash indices over lists

A hash index maps each key to the positions of the items with this key, in ascending order. Building it
takes one pass over the list; probing it answers what a filter over the list answers.

* `getD_build` — the positions of a key.
* `probe_build` — the items of a key, in the order of the list and with its repetitions.
-/

namespace HashIndex

variable {α κ : Type*} [BEq κ] [Hashable κ]

/-- Add the position of an item to those of its key. -/
def push (key : α → κ) (index : Std.HashMap κ (List Nat)) (item : α × Nat) :
    Std.HashMap κ (List Nat) :=
  index.insert (key item.1) (index.getD (key item.1) [] ++ [item.2])

def build (key : α → κ) (items : List α) : Std.HashMap κ (List Nat) :=
  items.zipIdx.foldl (push key) ∅

/-- The items at the positions of a key. -/
def probe (items : List α) (index : Std.HashMap κ (List Nat)) (k : κ) : List α :=
  match index[k]? with
  | some positions => positions.filterMap (items[·]?)
  | none => []

section Lookup

variable [LawfulBEq κ] [LawfulHashable κ]

theorem getD_push (key : α → κ) (index : Std.HashMap κ (List Nat)) (item : α × Nat) (k : κ) :
    (push key index item).getD k [] =
      index.getD k [] ++ if key item.1 == k then [item.2] else [] := by
  rw [push, Std.HashMap.getD_insert]
  split
  · next heq => rw [← eq_of_beq heq]
  · rw [List.append_nil]

theorem getD_foldl_push (key : α → κ) (items : List (α × Nat)) (index : Std.HashMap κ (List Nat))
    (k : κ) :
    (items.foldl (push key) index).getD k [] =
      index.getD k [] ++ (items.filter fun item => key item.1 == k).map Prod.snd := by
  induction items generalizing index with
  | nil => simp
  | cons item items ih =>
    rw [List.foldl_cons, ih, getD_push, List.append_assoc, List.filter_cons]
    congr 1
    split <;> rfl

/-- **The positions of a key.** -/
theorem getD_build (key : α → κ) (items : List α) (k : κ) :
    (build key items).getD k [] =
      (items.zipIdx.filter fun item => key item.1 == k).map Prod.snd := by
  rw [build, getD_foldl_push, Std.HashMap.getD_empty, List.nil_append]

theorem probe_eq_getD (items : List α) (index : Std.HashMap κ (List Nat)) (k : κ) :
    probe items index k = (index.getD k []).filterMap (items[·]?) := by
  rw [probe, Std.HashMap.getD_eq_getD_getElem?]
  cases index[k]? with
  | none => rfl
  | some positions => rfl

/-- **Probing is filtering.** -/
theorem probe_build (key : α → κ) (items : List α) (k : κ) :
    probe items (build key items) k = items.filter fun item => key item == k := by
  rw [probe_eq_getD, getD_build, List.filterMap_map]
  -- The item at the position it is enumerated with is the item itself.
  have hself : ∀ item ∈ items.zipIdx.filter (fun item => key item.1 == k),
      ((items[·]?) ∘ Prod.snd) item = (some ∘ Prod.fst) item := by
    intro item hitem
    exact List.mem_zipIdx_iff_getElem?.mp (List.mem_of_mem_filter hitem)
  rw [List.filterMap_congr hself, List.filterMap_eq_map]
  show ((items.zipIdx.filter ((key · == k) ∘ Prod.fst)).map Prod.fst) = _
  rw [← List.filter_map, List.zipIdx_map_fst]

end Lookup

end HashIndex
