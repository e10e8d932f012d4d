import Mathlib

/-!
# Secondary indexes

A store keeps its records in a primary map and, in a second structure, the keys under which they can
be found by something other than their primary key. The second structure is right when it
`Mirrors` the first: it holds a key exactly when some stored record has that key.

Every index key belongs to one primary key (`Separated`), so replacing one record touches only keys
of its own; `Mirrors.update` is the rule for such a replacement, with as much slack as writers use:
they may leave alone what the old and the new record share.
-/

namespace SecondaryIndex

variable {κ ν ι : Type*} (keyOf : ν → κ) (keysOf : ν → Set ι)

/-- Records with different primary keys share no index key. -/
def Separated : Prop := ∀ v v' i, i ∈ keysOf v → i ∈ keysOf v' → keyOf v = keyOf v'

/-- Every record is stored under its own key. -/
def WellKeyed (records : κ → Option ν) : Prop := ∀ k v, records k = some v → keyOf v = k

/-- The index holds exactly the keys of the stored records. -/
def Mirrors (records : κ → Option ν) (index : Set ι) : Prop :=
  ∀ i, i ∈ index ↔ ∃ k v, records k = some v ∧ i ∈ keysOf v

/-- The index keys of a record that may be absent. -/
def keysOfOption (o : Option ν) : Set ι := {i | ∃ v, o = some v ∧ i ∈ keysOf v}

@[simp] theorem keysOfOption_some (v : ν) : keysOfOption keysOf (some v) = keysOf v := by
  ext i
  simp [keysOfOption]

@[simp] theorem keysOfOption_none : keysOfOption keysOf (none : Option ν) = ∅ := by
  ext i
  simp [keysOfOption]

variable {keyOf keysOf} {records records' : κ → Option ν} {index index' : Set ι} {k : κ}
  {new : Option ν}

theorem mirrors_empty (h : ∀ k, records k = none) : Mirrors keysOf records ∅ := by
  intro i
  simp [h]

/-- **Replacing one record.** The index drops some keys `D` of the old record, at least those the new
one lacks, and then takes all keys of the new one. -/
theorem Mirrors.update [DecidableEq κ] {D : Set ι} (hsep : Separated keyOf keysOf)
    (hkeyed : WellKeyed keyOf records) (h : Mirrors keysOf records index)
    (hnew : ∀ v, new = some v → keyOf v = k) (hD : D ⊆ keysOfOption keysOf (records k))
    (hstale : keysOfOption keysOf (records k) ⊆ D ∪ keysOfOption keysOf new)
    (hindex : ∀ i, i ∈ index' ↔ i ∈ keysOfOption keysOf new ∨ (i ∈ index ∧ i ∉ D)) :
    Mirrors keysOf (Function.update records k new) index' := by
  intro i
  rw [hindex]
  constructor
  · rintro (⟨v, rfl, hi⟩ | ⟨hi, hiD⟩)
    · exact ⟨k, v, by simp, hi⟩
    · obtain ⟨k', v, hv, hiv⟩ := (h i).mp hi
      by_cases hk : k' = k
      · -- a key of the old record that was kept is one of the new record
        subst hk
        rcases hstale ⟨v, hv, hiv⟩ with hi' | ⟨w, rfl, hiw⟩
        · exact absurd hi' hiD
        · exact ⟨k', w, by simp, hiw⟩
      · exact ⟨k', v, by simp [hk, hv], hiv⟩
  · rintro ⟨k', v, hv, hiv⟩
    by_cases hk : k' = k
    · subst hk
      rw [Function.update_self] at hv
      exact .inl ⟨v, hv, hiv⟩
    · rw [Function.update_of_ne hk] at hv
      refine .inr ⟨(h i).mpr ⟨k', v, hv, hiv⟩, fun hi => hk ?_⟩
      obtain ⟨w, hw, hiw⟩ := hD hi
      rw [← hkeyed k' v hv, ← hkeyed k w hw]
      exact hsep v w i hiv hiw

/-- **Dropping a class of records** together with the index keys of that class. -/
theorem Mirrors.restrict {p : κ → Prop} {q : ι → Prop} (h : Mirrors keysOf records index)
    (hpq : ∀ k v, records k = some v → ∀ i ∈ keysOf v, (q i ↔ p k))
    (hrec : ∀ k v, records' k = some v ↔ records k = some v ∧ ¬ p k)
    (hindex : ∀ i, i ∈ index' ↔ i ∈ index ∧ ¬ q i) : Mirrors keysOf records' index' := by
  intro i
  rw [hindex, h i]
  constructor
  · rintro ⟨⟨k, v, hv, hiv⟩, hq⟩
    exact ⟨k, v, (hrec k v).mpr ⟨hv, by rwa [← hpq k v hv i hiv]⟩, hiv⟩
  · rintro ⟨k, v, hv, hiv⟩
    obtain ⟨hv, hp⟩ := (hrec k v).mp hv
    exact ⟨⟨k, v, hv, hiv⟩, by rwa [hpq k v hv i hiv]⟩

theorem WellKeyed.update [DecidableEq κ] (h : WellKeyed keyOf records)
    (hnew : ∀ v, new = some v → keyOf v = k) :
    WellKeyed keyOf (Function.update records k new) := by
  intro k' v hv
  by_cases hk : k' = k
  · subst hk
    rw [Function.update_self] at hv
    exact hnew v hv
  · rw [Function.update_of_ne hk] at hv
    exact h k' v hv

end SecondaryIndex
