import Mathlib

/-!
# Values with a history

A multi-version store keeps, for one key, a value for each of finitely many timestamps. A reader at
time `s` is shown the newest version written at or before `s`. This file is about that one
notion, over any linearly ordered timestamps: which version a reader sees (`IsNewest`), what it
reads (`ReadsAt`), the two facts every snapshot argument is made of —

* versions above `s` are invisible at `s` (`ReadsAt.congr_of_le`);
* a version newer than all others is what every later reader sees (`readsAt_of_top`),

and what a history may forget without a reader noticing (`isNewest_iff_of_thinned`).
-/

/-- 64-bit words are ordered as numbers. -/
instance UInt64.instLinearOrder : LinearOrder UInt64 where
  le_refl a := UInt64.le_refl a
  le_trans _ _ _ := UInt64.le_trans
  le_antisymm _ _ := UInt64.le_antisymm
  le_total := UInt64.le_total
  lt_iff_le_not_ge a b := by
    simp only [UInt64.lt_iff_toNat_lt, UInt64.le_iff_toNat_le]
    omega
  toDecidableLE := inferInstance
  toDecidableLT := inferInstance
  toDecidableEq := inferInstance

namespace Versioned

variable {τ ν : Type*} [LinearOrder τ] {vs vs' : τ → Option ν} {s t t' : τ}

/-- `t` is the time of the newest version written at or before `s`. -/
structure IsNewest (vs : τ → Option ν) (s t : τ) : Prop where
  present : (vs t).isSome
  visible : t ≤ s
  newest : ∀ t', (vs t').isSome → t' ≤ s → t' ≤ t

/-- What a reader at time `s` is shown: the newest visible version, or nothing. -/
def ReadsAt (vs : τ → Option ν) (s : τ) : Option ν → Prop
  | some v => ∃ t, IsNewest vs s t ∧ vs t = some v
  | none => ∀ t ≤ s, vs t = none

theorem IsNewest.unique (h : IsNewest vs s t) (h' : IsNewest vs s t') : t = t' :=
  le_antisymm (h'.newest t h.present h.visible) (h.newest t' h'.present h'.visible)

/-- A reader is shown one thing. -/
theorem ReadsAt.unique {r r' : Option ν} (h : ReadsAt vs s r) (h' : ReadsAt vs s r') : r = r' := by
  cases r with
  | none =>
    cases r' with
    | none => rfl
    | some v' =>
      obtain ⟨t, ht, hv⟩ := h'
      rw [h t ht.visible] at hv
      cases hv
  | some v =>
    obtain ⟨t, ht, hv⟩ := h
    cases r' with
    | none =>
      rw [h' t ht.visible] at hv
      cases hv
    | some v' =>
      obtain ⟨t', ht', hv'⟩ := h'
      rw [ht.unique ht', hv'] at hv
      exact hv.symm

/-- Readers at `s` cannot tell apart histories that agree up to `s`. -/
theorem IsNewest.congr_of_le (hvs : ∀ t ≤ s, vs t = vs' t) (h : IsNewest vs s t) :
    IsNewest vs' s t where
  present := hvs t h.visible ▸ h.present
  visible := h.visible
  newest t' ht' hle := h.newest t' (hvs t' hle ▸ ht') hle

theorem ReadsAt.congr_of_le {r : Option ν} (hvs : ∀ t ≤ s, vs t = vs' t) (h : ReadsAt vs s r) :
    ReadsAt vs' s r := by
  cases r with
  | none => exact fun t ht => hvs t ht ▸ h t ht
  | some v =>
    obtain ⟨t, ht, hv⟩ := h
    exact ⟨t, ht.congr_of_le hvs, hvs t ht.visible ▸ hv⟩

/-- A reader may move on to `s'` when nothing was written in between. -/
theorem ReadsAt.extend {r : Option ν} {s' : τ} (hs : s ≤ s')
    (hgap : ∀ t, s < t → t ≤ s' → vs t = none) (h : ReadsAt vs s r) : ReadsAt vs s' r := by
  have hle : ∀ t, (vs t).isSome → t ≤ s' → t ≤ s := by
    intro t ht hts
    by_contra hlt
    rw [hgap t (not_le.mp hlt) hts] at ht
    cases ht
  cases r with
  | none =>
    intro t ht
    by_cases hts : t ≤ s
    · exact h t hts
    · exact hgap t (not_le.mp hts) ht
  | some v =>
    obtain ⟨t, ht, hv⟩ := h
    exact ⟨t, ⟨ht.present, ht.visible.trans hs,
      fun t' ht' hle' => ht.newest t' ht' (hle t' ht' hle')⟩, hv⟩

/-- A version above all others is what every later reader is shown. -/
theorem readsAt_of_top {v : ν} (hv : vs t = some v) (hts : t ≤ s)
    (htop : ∀ t', (vs t').isSome → t' ≤ t) : ReadsAt vs s (some v) :=
  ⟨t, ⟨by simp [hv], hts, fun t' ht' _ => htop t' ht'⟩, hv⟩

/-- Dropping versions is invisible from `w` on if each of them was replaced, at or before `w`, by a
version that is kept. -/
theorem isNewest_iff_of_thinned {w : τ} (hs : w ≤ s) (hsub : ∀ t, vs' t = vs t ∨ vs' t = none)
    (hkept : ∀ t, (vs t).isSome → vs' t = none → ∃ u, t < u ∧ u ≤ w ∧ (vs' u).isSome) :
    IsNewest vs' s t ↔ IsNewest vs s t := by
  have hmem : ∀ u, (vs' u).isSome → (vs u).isSome := by
    intro u hu
    rcases hsub u with heq | hnone
    · rwa [← heq]
    · simp [hnone] at hu
  constructor
  · intro h
    refine ⟨hmem t h.present, h.visible, fun t' ht' hle => ?_⟩
    cases hv : vs' t' with
    | some v => exact h.newest t' (by simp [hv]) hle
    | none =>
      obtain ⟨u, hlt, huw, hu⟩ := hkept t' ht' hv
      exact hlt.le.trans (h.newest u hu (huw.trans hs))
  · intro h
    refine ⟨?_, h.visible, fun t' ht' hle => h.newest t' (hmem t' ht') hle⟩
    rw [Option.isSome_iff_ne_none]
    intro hv
    -- the version that replaced `t` would be newer
    obtain ⟨u, hlt, huw, hu⟩ := hkept t h.present hv
    exact absurd (h.newest u (hmem u hu) (huw.trans hs)) (not_le.mpr hlt)

/-- Over a history with finitely many versions every reader is shown something. -/
theorem exists_readsAt (hfin : {t | (vs t).isSome}.Finite) (s : τ) : ∃ r, ReadsAt vs s r := by
  by_cases hne : ∃ t, (vs t).isSome ∧ t ≤ s
  · obtain ⟨t₀, ht₀⟩ := hne
    have hsub : {t | (vs t).isSome ∧ t ≤ s}.Finite := hfin.subset fun t ht => ht.1
    obtain ⟨t, ⟨hp, hts⟩, hmax⟩ := hsub.exists_maximalFor id _ ⟨t₀, ht₀⟩
    obtain ⟨v, hv⟩ := Option.isSome_iff_exists.mp hp
    refine ⟨some v, t, ⟨hp, hts, ?_⟩, hv⟩
    intro t' ht' hle
    by_contra hlt
    exact hlt (hmax ⟨ht', hle⟩ (not_le.mp hlt).le)
  · refine ⟨none, fun t hts => ?_⟩
    by_contra hv
    exact hne ⟨t, Option.isSome_iff_ne_none.mpr hv, hts⟩

end Versioned
