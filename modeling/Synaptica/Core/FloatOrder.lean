import Synaptica.Core.Float
import Synaptica.Lib.Binary64

/-!
# The order of floats

`partial_cmp` on numbers that are not NaN is the order of their ranks, and an integer cast to a float
does not change sides.
-/

namespace Synaptica.F64

open Binary64

/-- Numbers compare as their ranks do. -/
theorem partialCmp_eq {a b : UInt64} (ha : IsNumber a) (hb : IsNumber b) :
    partialCmp a b = some (compare (rank a) (rank b)) := by
  unfold partialCmp
  simp only [F64.eq, lt_iff ha hb, lt_iff hb ha, beq_iff ha hb]
  rcases lt_trichotomy (rank a) (rank b) with h | h | h
  · rw [if_pos h, compare_lt_iff_lt.mpr h]
  · rw [if_neg h.not_lt, if_neg h.symm.not_lt, if_pos h, compare_eq_iff_eq.mpr h]
  · rw [if_neg h.not_gt, if_pos h, compare_gt_iff_gt.mpr h]

theorem eq_iff {a b : UInt64} (ha : IsNumber a) (hb : IsNumber b) :
    F64.eq a b = true ↔ rank a = rank b :=
  beq_iff ha hb

/-- One number is below another one exactly when both are numbers and its rank is. -/
theorem partialCmp_eq_lt {a b : UInt64} :
    partialCmp a b = some .lt ↔ IsNumber a ∧ IsNumber b ∧ rank a < rank b := by
  constructor
  · intro h
    have hlt : Float.ofBits a < Float.ofBits b := by
      unfold partialCmp at h
      split_ifs at h with hlt <;> first | exact hlt | cases h
    obtain ⟨ha, hb⟩ := isNumber_of_lt hlt
    exact ⟨ha, hb, (lt_iff ha hb).mp hlt⟩
  · rintro ⟨ha, hb, hlt⟩
    rw [partialCmp_eq ha hb, compare_lt_iff_lt.mpr hlt]

theorem partialCmp_eq_gt {a b : UInt64} :
    partialCmp a b = some .gt ↔ IsNumber a ∧ IsNumber b ∧ rank b < rank a := by
  constructor
  · intro h
    have hgt : Float.ofBits b < Float.ofBits a := by
      unfold partialCmp at h
      split_ifs at h with hlt hgt <;> first | exact hgt | cases h
    obtain ⟨hb, ha⟩ := isNumber_of_lt hgt
    exact ⟨ha, hb, (lt_iff hb ha).mp hgt⟩
  · rintro ⟨ha, hb, hgt⟩
    rw [partialCmp_eq ha hb, compare_gt_iff_gt.mpr hgt]

theorem partialCmp_eq_eq {a b : UInt64} : partialCmp a b = some .eq ↔ F64.eq a b = true := by
  constructor
  · intro h
    unfold partialCmp at h
    split_ifs at h with _ _ heq <;> first | exact heq | cases h
  · intro h
    obtain ⟨ha, hb⟩ := isNumber_of_beq h
    rw [partialCmp_eq ha hb, compare_eq_iff_eq.mpr ((eq_iff ha hb).mp h)]

theorem eq_comm (a b : UInt64) : F64.eq a b = F64.eq b a := by
  have himp : ∀ {a b : UInt64}, F64.eq a b = true → F64.eq b a = true := by
    intro a b h
    obtain ⟨ha, hb⟩ := isNumber_of_beq h
    exact (eq_iff hb ha).mpr ((eq_iff ha hb).mp h).symm
  exact Bool.eq_iff_iff.mpr ⟨himp, himp⟩

/-- An integer becomes a number, on its own side of zero. -/
theorem ofInt64_spec (n : Int64) : IsNumber (ofInt64 n) ∧ rank (ofInt64 n) =
    if n.toInt < 0 then -(natRank n.toInt.natAbs : Int) else natRank n.toInt.natAbs := by
  have hlt := n.toInt_lt
  have hle := n.le_toInt
  have hnat : (UInt64.ofNat n.toInt.natAbs).toNat = n.toInt.natAbs :=
    UInt64.toNat_ofNat_of_lt' (by show _ < 2 ^ 64; omega)
  have hnumber := isNumber_toFloat (UInt64.ofNat n.toInt.natAbs)
  have hneg : n < 0 ↔ n.toInt < 0 := Int64.lt_iff_toInt_lt
  unfold ofInt64
  by_cases h : n.toInt < 0
  · obtain ⟨hnumber', hrank⟩ := neg_toBits hnumber
    rw [if_pos h]
    simp only [if_pos (hneg.mpr h)]
    exact ⟨hnumber', by rw [hrank, rank_toFloat, hnat]⟩
  · rw [if_neg h]
    simp only [if_neg (hneg.not.mpr h)]
    exact ⟨hnumber, by rw [rank_toFloat, hnat]⟩

theorem isNumber_ofInt64 (n : Int64) : IsNumber (ofInt64 n) := (ofInt64_spec n).1

/-- The cast to a float is monotone. -/
theorem rank_ofInt64_mono {m n : Int64} (h : m ≤ n) : rank (ofInt64 m) ≤ rank (ofInt64 n) := by
  have hle : m.toInt ≤ n.toInt := Int64.le_iff_toInt_le.mp h
  rw [(ofInt64_spec m).2, (ofInt64_spec n).2]
  split_ifs with hm hn hn
  · have := natRank_mono (show n.toInt.natAbs ≤ m.toInt.natAbs by omega)
    omega
  · omega
  · omega
  · have := natRank_mono (show m.toInt.natAbs ≤ n.toInt.natAbs by omega)
    omega

end Synaptica.F64
