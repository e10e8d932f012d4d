import Mathlib

/-!
# Selecting before or after a map

To select elements and then map them is not always the same as to map all and then select images. Of
the selection by two predicates that is an equation of lists; it holds exactly where the predicates
agree, element by element. The second result is the same for a map that can fail, when every image shows which
element it comes from.
-/

namespace List

variable {α β κ : Type}

/-- Two selections with the same images are the same, when the second selects by the image. -/
theorem map_filter_eq_filter_map_iff {f : α → β} {p : α → Bool} {q : β → Bool} {l : List α} :
    (l.filter p).map f = (l.map f).filter q ↔ ∀ a ∈ l, p a = q (f a) := by
  rw [filter_map]
  constructor
  · intro h
    have hsub : ∀ a ∈ l, p a = true → q (f a) = true := by
      intro a ha hp
      have hmem : f a ∈ (l.filter p).map f := mem_map_of_mem (mem_filter.mpr ⟨ha, hp⟩)
      rw [h] at hmem
      obtain ⟨b, hb, hfb⟩ := mem_map.mp hmem
      exact hfb ▸ (mem_filter.mp hb).2
    -- the selection by `p` lies inside the other one, and has its length
    have hmeet : l.filter p = (l.filter (q ∘ f)).filter p := by
      rw [filter_filter]
      refine filter_congr fun a ha => ?_
      cases hp : p a with
      | false => rfl
      | true => exact (hsub a ha hp).symm
    have hsame : l.filter p = l.filter (q ∘ f) := by
      have hsublist : (l.filter p).Sublist (l.filter (q ∘ f)) := hmeet ▸ filter_sublist
      apply hsublist.eq_of_length
      simpa using congrArg length h
    intro a ha
    rw [Bool.eq_iff_iff]
    constructor
    · exact hsub a ha
    · intro hq
      have hmem : a ∈ l.filter p := hsame ▸ mem_filter.mpr ⟨ha, hq⟩
      exact (mem_filter.mp hmem).2
  · intro h
    exact congrArg (map f) (filter_congr h)

/-- **Equal images of tagged elements.** Where every image carries the key of its element, and no two elements
have one key, two partial maps with the same images are the same map. -/
theorem filterMap_eq_filterMap_iff {f g : α → Option β} {key : α → κ} {tag : β → κ} {l : List α}
    (hkeys : (l.map key).Nodup) (hf : ∀ a ∈ l, ∀ b, f a = some b → tag b = key a)
    (hg : ∀ a ∈ l, ∀ b, g a = some b → tag b = key a) :
    l.filterMap f = l.filterMap g ↔ ∀ a ∈ l, f a = g a := by
  constructor
  · intro h
    have hone : ∀ u v : α → Option β, l.filterMap u = l.filterMap v →
        (∀ a ∈ l, ∀ b, u a = some b → tag b = key a) → (∀ a ∈ l, ∀ b, v a = some b → tag b = key a) →
        ∀ a ∈ l, ∀ b, u a = some b → v a = some b := by
      intro u v huv hu hv a ha b hb
      have hmem : b ∈ l.filterMap v := huv ▸ mem_filterMap.mpr ⟨a, ha, hb⟩
      obtain ⟨a', ha', hb'⟩ := mem_filterMap.mp hmem
      have hkey : key a' = key a := (hv a' ha' b hb').symm.trans (hu a ha b hb)
      exact inj_on_of_nodup_map hkeys ha' ha hkey ▸ hb'
    intro a ha
    apply Option.ext
    intro b
    exact ⟨hone f g h hf hg a ha b, hone g f h.symm hg hf a ha b⟩
  · exact filterMap_congr

end List
