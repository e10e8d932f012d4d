import Mathlib.Data.Set.Card

/-!
# Sets of records told apart by a key

A `KeyedSet key` is a finite set of records of which no two have the same key: what a table holds,
whatever holds it. A record is put under its key, records are taken out, and records are changed in
place; `count` says how many there are.
-/

/-- A finite set of records, no two with the same key. -/
structure KeyedSet {ρ κ : Type} (key : ρ → κ) where
  carrier : Set ρ
  injOn : carrier.InjOn key
  finite : carrier.Finite

namespace KeyedSet

variable {ρ κ : Type} {key : ρ → κ}

instance : Membership ρ (KeyedSet key) := ⟨fun s r => r ∈ s.carrier⟩

@[ext] theorem ext {s t : KeyedSet key} (h : ∀ r, r ∈ s ↔ r ∈ t) : s = t := by
  have hcarrier : s.carrier = t.carrier := Set.ext h
  cases s
  cases t
  cases hcarrier
  rfl

variable (s : KeyedSet key)

variable {s} in
theorem eq_of_key {r r' : ρ} (hr : r ∈ s) (hr' : r' ∈ s) (h : key r = key r') : r = r' :=
  s.injOn hr hr' h

/-- How many records there are. -/
noncomputable def count : Nat := s.carrier.ncard

/-! ## Operations -/

/-- Put a record under its key, in the place of the one that was there. -/
def put (r : ρ) : KeyedSet key where
  carrier := {x | x = r ∨ x ∈ s ∧ key x ≠ key r}
  injOn := by
    rintro a (rfl | ⟨ha, hne⟩) b (rfl | ⟨hb, hne'⟩) h
    · rfl
    · exact absurd h.symm hne'
    · exact absurd h hne
    · exact s.injOn ha hb h
  finite := (s.finite.insert r).subset (by rintro x (rfl | ⟨hx, -⟩); exacts [.inl rfl, .inr hx])

/-- The records that satisfy the predicate. -/
def filter (p : ρ → Prop) : KeyedSet key where
  carrier := {x | x ∈ s ∧ p x}
  injOn := fun _ ha _ hb h => s.injOn ha.1 hb.1 h
  finite := s.finite.subset fun _ h => h.1

/-- Change the records in place. -/
def map (f : ρ → ρ) (hf : ∀ r, key (f r) = key r) : KeyedSet key where
  carrier := f '' s.carrier
  injOn := by
    rintro _ ⟨a, ha, rfl⟩ _ ⟨b, hb, rfl⟩ h
    rw [hf, hf] at h
    rw [s.injOn ha hb h]
  finite := s.finite.image f

variable {s} {r x : ρ} {p q : ρ → Prop} {f g : ρ → ρ} {hf : ∀ r, key (f r) = key r}
  {hg : ∀ r, key (g r) = key r}

@[simp] theorem mem_put : x ∈ s.put r ↔ x = r ∨ x ∈ s ∧ key x ≠ key r := Iff.rfl

@[simp] theorem mem_filter : x ∈ s.filter p ↔ x ∈ s ∧ p x := Iff.rfl

@[simp] theorem mem_map : x ∈ s.map f hf ↔ ∃ r ∈ s, f r = x := Iff.rfl

/-! ## How they compose -/

theorem filter_filter : (s.filter p).filter q = s.filter fun r => p r ∧ q r := by
  ext r
  simp [and_assoc]

/-- What satisfies the predicate stays. -/
theorem filter_eq_self (h : ∀ r ∈ s, p r) : s.filter p = s := by
  ext r
  simpa using h r

theorem filter_congr (h : ∀ r ∈ s, p r ↔ q r) : s.filter p = s.filter q := by
  ext r
  simp only [mem_filter]
  exact and_congr_right (h r)

/-- A filter shows what it lets through. -/
theorem filter_eq_filter_iff : s.filter p = s.filter q ↔ ∀ r ∈ s, p r ↔ q r := by
  refine ⟨fun h r hr => ?_, filter_congr⟩
  have hmem : r ∈ s.filter p ↔ r ∈ s.filter q := by rw [h]
  simpa [hr] using hmem

theorem map_map : (s.map f hf).map g hg = s.map (g ∘ f) fun r => (hg _).trans (hf r) := by
  ext r
  simp

theorem map_eq_self (h : ∀ r ∈ s, f r = r) : s.map f hf = s := by
  ext r
  rw [mem_map]
  constructor
  · rintro ⟨x, hx, rfl⟩
    rwa [h x hx]
  · exact fun hr => ⟨r, hr, h r hr⟩

/-- Two changes have the same outcome when they agree on every record. -/
theorem map_eq_map_iff : s.map f hf = s.map g hg ↔ ∀ r ∈ s, f r = g r := by
  constructor
  · intro h r hr
    have hmem : f r ∈ s.map g hg := h ▸ mem_map.mpr ⟨r, hr, rfl⟩
    obtain ⟨r', hr', heq⟩ := mem_map.mp hmem
    -- both changes leave the key alone, so the record behind the outcome is the same one
    have hkey : key r' = key r := by rw [← hg r', heq, hf r]
    rw [← heq, eq_of_key hr' hr hkey]
  · intro h
    ext x
    simp only [mem_map]
    exact exists_congr fun r => and_congr_right fun hr => by rw [h r hr]

/-- Changing one record is putting the changed record. -/
theorem map_eq_put (hr : r ∈ s) (h : ∀ x ∈ s, x ≠ r → f x = x) : s.map f hf = s.put (f r) := by
  ext x
  rw [mem_map, mem_put, hf]
  constructor
  · rintro ⟨y, hy, rfl⟩
    by_cases hyr : y = r
    · exact .inl (by rw [hyr])
    · refine .inr ⟨by rwa [h y hy hyr], fun hkey => hyr ?_⟩
      rw [h y hy hyr] at hkey
      exact eq_of_key hy hr hkey
  · rintro (rfl | ⟨hx, hkey⟩)
    · exact ⟨r, hr, rfl⟩
    · exact ⟨x, hx, h x hx fun heq => hkey (by rw [heq])⟩

/-! ## Counting -/

/-- A record under a new key is one more. -/
theorem count_put_new (h : ∀ x ∈ s, key x ≠ key r) : (s.put r).count = s.count + 1 := by
  have hnew : r ∉ s.carrier := fun hr => h r hr rfl
  have hcarrier : (s.put r).carrier = insert r s.carrier := by
    ext x
    exact or_congr_right (and_iff_left_of_imp fun hx => h x hx)
  rw [count, hcarrier, Set.ncard_insert_of_notMem hnew s.finite, count]

/-- Changing records in place leaves as many as there were. -/
@[simp] theorem count_map : (s.map f hf).count = s.count := by
  apply Set.InjOn.ncard_image
  intro a ha b hb h
  have hkey : key a = key b := by rw [← hf a, h, hf b]
  exact s.injOn ha hb hkey

/-- What is kept and what is taken out make up the whole. -/
theorem count_filter_add (p : ρ → Prop) : (s.filter p).count + (s.filter fun r => ¬ p r).count =
    s.count := by
  have hdiff : (s.filter fun r => ¬ p r).carrier = s.carrier \ (s.filter p).carrier := by
    ext x
    show x ∈ s ∧ ¬ p x ↔ x ∈ s ∧ ¬ (x ∈ s ∧ p x)
    tauto
  have hsub : (s.filter p).carrier ⊆ s.carrier := fun _ h => h.1
  rw [count, count, hdiff, add_comm]
  exact Set.ncard_sdiff_add_ncard_of_subset hsub s.finite

/-- A list of all the keys, each once, is as long as there are records. -/
theorem count_eq_length {ks : List κ} (hnodup : ks.Nodup) (hmem : ∀ k, k ∈ ks ↔ ∃ r ∈ s, key r = k) :
    s.count = ks.length := by
  classical
  have hkeys : key '' s.carrier = (ks.toFinset : Set κ) := by
    ext k
    rw [List.coe_toFinset]
    exact (hmem k).symm
  rw [count, ← s.injOn.ncard_image, hkeys, Set.ncard_coe_finset, List.toFinset_card_of_nodup hnodup]

/-- Taking out one record leaves one less. -/
theorem count_filter_ne (hr : r ∈ s) : (s.filter fun x => key x ≠ key r).count + 1 = s.count := by
  have hone : (s.filter fun x => ¬ key x ≠ key r).count = [key r].length := by
    apply count_eq_length (List.nodup_singleton (key r))
    intro k
    simp only [List.mem_singleton, mem_filter, not_not]
    constructor
    · intro hk
      exact ⟨r, ⟨hr, rfl⟩, hk.symm⟩
    · rintro ⟨x, ⟨-, hx⟩, rfl⟩
      exact hx
  rw [← count_filter_add (s := s) fun x => key x ≠ key r, hone]
  rfl

end KeyedSet
