import Mathlib

/-!
# Binary64 by its bits

Lean computes with a float by unpacking its bits into sign, mantissa and exponent, and packing the
result. Here the unpacked side is left again: comparing two numbers compares where their bits stand
(`lt_iff`, `beq_iff`), negation goes to the opposite place (`neg_toBits`), and a natural number is
rounded to a place that does not go down when the number goes up (`rank_toFloat`, `natRank_mono`).
-/

namespace Binary64

open Float.Model Float.Model.UnpackedFloat

/-- The bits are not those of a NaN. -/
def IsNumber (bits : UInt64) : Prop := bits.toNat % 2 ^ 63 ≤ 0x7FF0000000000000

/-- Where a number stands: sign and magnitude, with both zeros in one place. -/
def rank (bits : UInt64) : Int :=
  if bits.toNat < 2 ^ 63 then bits.toNat else 2 ^ 63 - bits.toNat

/-! ## The fields of a float -/

theorem toNat_unpackMantissa (b : BitVec Format.binary64.numBits) :
    (unpackMantissa b).toNat = b.toNat % 2 ^ 52 := by
  simp [unpackMantissa, BitVec.extractLsb_toNat]

theorem toNat_unpackExponent (b : BitVec Format.binary64.numBits) :
    (unpackExponent b).toNat = b.toNat / 2 ^ 52 % 2 ^ 11 := by
  simp [unpackExponent, BitVec.extractLsb_toNat, Nat.shiftRight_eq_div_pow]

theorem toNat_unpackSign (b : BitVec Format.binary64.numBits) :
    (unpackSign b).toNat = b.toNat / 2 ^ 63 % 2 := by
  simp [unpackSign, BitVec.extractLsb_toNat, Nat.shiftRight_eq_div_pow]

theorem toNat_packComponents (s : Sign) (e : BitVec 11) (m : BitVec 52) :
    (packComponents Format.binary64 s e m).toNat =
      s.toBitVec.toNat * 2 ^ 63 + e.toNat * 2 ^ 52 + m.toNat := by
  have he := e.isLt
  have hm := m.isLt
  simp only [packComponents, BitVec.toNat_append]
  rw [← Nat.shiftLeft_add_eq_or_of_lt hm, ← Nat.shiftLeft_add_eq_or_of_lt he, Nat.shiftLeft_eq,
    Nat.shiftLeft_eq]
  ring

/-- Finite floats as they are stored: no mantissa bit is lost, and the leading bit is missing only at the
least exponent. -/
def Canonical (m : Nat) (e : Int) : Prop :=
  0 < m ∧ m < 2 ^ 53 ∧ -1074 ≤ e ∧ (e = -1074 ∨ 2 ^ 52 ≤ m) ∧ e ≤ 971

/-- The magnitude of a finite float among the bit patterns. -/
def magnitude (m : Nat) (e : Int) : Nat := (e + 1074).toNat * 2 ^ 52 + m

/-- What the bits of a number stand for. -/
inductive Stands : UnpackedFloat → Sign → Nat → Prop
  | zero (s : Sign) : Stands (.zero s) s 0
  | finite (s : Sign) (m : Nat) (e : Int) (hm : 0 < m) (h : Canonical m e) :
      Stands (.finite s m e hm) s (magnitude m e)
  | infinity (s : Sign) : Stands (.infinity s) s 0x7FF0000000000000

theorem Canonical.magnitude_lt {m : Nat} {e : Int} (h : Canonical m e) :
    magnitude m e < 0x7FF0000000000000 := by
  obtain ⟨-, hm, he, -, he'⟩ := h
  unfold magnitude
  omega

theorem Canonical.magnitude_pos {m : Nat} {e : Int} (h : Canonical m e) : 0 < magnitude m e :=
  Nat.add_pos_right _ h.1

/-- Magnitudes are ordered as exponents are, and then as mantissas are. -/
theorem compare_magnitude {m m' : Nat} {e e' : Int} (h : Canonical m e) (h' : Canonical m' e') :
    (compare e e').then (compare m m') = compare (magnitude m e) (magnitude m' e') := by
  obtain ⟨-, hm, he, hlead, -⟩ := h
  obtain ⟨-, hm', he', hlead', -⟩ := h'
  unfold magnitude
  rcases lt_trichotomy e e' with hlt | rfl | hgt
  · rw [compare_lt_iff_lt.mpr hlt, Ordering.lt_then, eq_comm, compare_lt_iff_lt]
    omega
  · rw [compare_eq_iff_eq.mpr rfl, Ordering.eq_then]
    rcases lt_trichotomy m m' with hlt | rfl | hgt
    · rw [compare_lt_iff_lt.mpr hlt, eq_comm, compare_lt_iff_lt]
      omega
    · rw [compare_eq_iff_eq.mpr rfl, compare_eq_iff_eq.mpr rfl]
    · rw [compare_gt_iff_gt.mpr hgt, eq_comm, compare_gt_iff_gt]
      omega
  · rw [compare_gt_iff_gt.mpr hgt, Ordering.gt_then, eq_comm, compare_gt_iff_gt]
    omega

theorem compare_natCast (m n : Nat) : compare (m : Int) n = compare m n := by
  rcases lt_trichotomy m n with hlt | rfl | hgt
  · rw [compare_lt_iff_lt.mpr hlt, compare_lt_iff_lt]
    omega
  · rw [compare_eq_iff_eq.mpr rfl, compare_eq_iff_eq.mpr rfl]
  · rw [compare_gt_iff_gt.mpr hgt, compare_gt_iff_gt]
    omega

theorem compare_neg (m n : Int) : compare (-m) (-n) = (compare m n).swap := by
  rw [Int.compare_swap]
  rcases lt_trichotomy m n with hlt | rfl | hgt
  · rw [compare_gt_iff_gt.mpr hlt, compare_gt_iff_gt]
    omega
  · rw [compare_eq_iff_eq.mpr rfl, compare_eq_iff_eq.mpr rfl]
  · rw [compare_lt_iff_lt.mpr hgt, compare_lt_iff_lt]
    omega

/-- **Comparing** two numbers compares their places. -/
theorem compare_stands {u v : UnpackedFloat} {s t : Sign} {m n : Nat} (hu : Stands u s m)
    (hv : Stands v t n) : u.compare v = some (compare (s.apply m) (t.apply n)) := by
  have below : ∀ {a b : Int}, a < b → some Ordering.lt = some (compare a b) :=
    fun h => congrArg some (compare_lt_iff_lt.mpr h).symm
  have above : ∀ {a b : Int}, b < a → some Ordering.gt = some (compare a b) :=
    fun h => congrArg some (compare_gt_iff_gt.mpr h).symm
  cases hu with
  | zero s =>
    cases hv with
    | zero t => cases s <;> cases t <;> rfl
    | finite t n e hn h =>
      have hpos := h.magnitude_pos
      cases s <;> cases t <;>
        first
        | exact below (by simp only [Sign.apply]; omega)
        | exact above (by simp only [Sign.apply]; omega)
    | infinity t => cases s <;> cases t <;> rfl
  | finite s m e hm h =>
    have hpos := h.magnitude_pos
    have hlt := h.magnitude_lt
    cases hv with
    | zero t =>
      cases s <;> cases t <;>
        first
        | exact below (by simp only [Sign.apply]; omega)
        | exact above (by simp only [Sign.apply]; omega)
    | finite t n e' hn h' =>
      have hpos' := h'.magnitude_pos
      cases s <;> cases t
      · show some ((compare e e').then (compare m n)).swap = some (compare (-_) (-_))
        rw [compare_magnitude h h', compare_neg, compare_natCast]
      · exact below (by simp only [Sign.apply]; omega)
      · exact above (by simp only [Sign.apply]; omega)
      · show some ((compare e e').then (compare m n)) = some (compare _ _)
        rw [compare_magnitude h h', Sign.apply, Sign.apply, compare_natCast]
    | infinity t =>
      cases s <;> cases t <;>
        first
        | exact below (by simp only [Sign.apply]; omega)
        | exact above (by simp only [Sign.apply]; omega)
  | infinity s =>
    cases hv with
    | zero t => cases s <;> cases t <;> rfl
    | finite t n e hn h =>
      have hpos := h.magnitude_pos
      have hlt := h.magnitude_lt
      cases s <;> cases t <;>
        first
        | exact below (by simp only [Sign.apply]; omega)
        | exact above (by simp only [Sign.apply]; omega)
    | infinity t => cases s <;> cases t <;> rfl

/-! ## Packing and unpacking -/

/-- The bits of a sign and a magnitude. -/
def bitsOf (s : Sign) (n : Nat) : Nat := s.toBitVec.toNat * 2 ^ 63 + n

theorem toNat_pack {u : UnpackedFloat} {s : Sign} {n : Nat} (h : Stands u s n) :
    (UnpackedFloat.pack Format.binary64 u).toNat = bitsOf s n := by
  cases h with
  | zero s => cases s <;> rfl
  | infinity s => cases s <;> rfl
  | finite s m e hm h =>
    obtain ⟨-, hlt, he, hlead, he'⟩ := h
    have hbias : (Format.binary64.exponentBias : Int) = 1023 := rfl
    have hbits : Format.binary64.mantissaBits = 53 := rfl
    simp only [UnpackedFloat.pack, hbias, hbits]
    rw [if_neg (by omega)]
    by_cases hnormal : 2 ^ 52 ≤ m
    · have hlog : m.log2 = 52 := (Nat.log2_eq_iff hm.ne').mpr ⟨hnormal, hlt⟩
      rw [if_pos (by rw [hlog]), toNat_packComponents, BitVec.toNat_ofNat, BitVec.toNat_ofNat]
      unfold bitsOf magnitude
      omega
    · have hlog : m.log2 < 52 := (Nat.log2_lt hm.ne').mpr (by omega)
      rw [if_neg (by omega), toNat_packComponents, BitVec.toNat_ofNat, BitVec.toNat_ofNat]
      unfold bitsOf magnitude
      omega

theorem toNat_implicit (m : BitVec 52) : (1#1 ++ m).toNat = 2 ^ 52 + m.toNat := by
  rw [BitVec.toNat_append, ← Nat.shiftLeft_add_eq_or_of_lt m.isLt]
  rfl

theorem toNat_sign (b : BitVec 1) : (Sign.ofBitVec b).toBitVec.toNat = b.toNat := by
  revert b
  decide

theorem stands_unpack {b : BitVec Format.binary64.numBits} (h : b.toNat % 2 ^ 63 ≤ 0x7FF0000000000000) :
    ∃ s n, Stands (UnpackedFloat.unpack Format.binary64 b) s n ∧ b.toNat = bitsOf s n := by
  have hb : b.toNat < 2 ^ 64 := b.isLt
  have hmantissa := toNat_unpackMantissa b
  have hexponent := toNat_unpackExponent b
  have hsign := (toNat_sign (unpackSign b)).trans (toNat_unpackSign b)
  have hbias : (Format.binary64.exponentBias : Int) = 1023 := rfl
  simp only [UnpackedFloat.unpack, hbias]
  split_ifs with hones hzero hleast hnone
  · have : (unpackExponent b).toNat = 2047 := by rw [hones]; rfl
    have : (unpackMantissa b).toNat = 0 := by rw [hzero]; rfl
    refine ⟨_, _, .infinity _, ?_⟩
    unfold bitsOf
    omega
  · have : (unpackExponent b).toNat = 2047 := by rw [hones]; rfl
    have : (unpackMantissa b).toNat ≠ 0 := fun h => hzero (BitVec.eq_of_toNat_eq h)
    omega
  · have : (unpackExponent b).toNat = 0 := by rw [hleast]; rfl
    have : (unpackMantissa b).toNat = 0 := by rw [hnone]; rfl
    refine ⟨_, _, .zero _, ?_⟩
    unfold bitsOf
    omega
  · have : (unpackExponent b).toNat = 0 := by rw [hleast]; rfl
    have : (unpackMantissa b).toNat ≠ 0 := fun h => hnone (BitVec.eq_of_toNat_eq h)
    refine ⟨_, _, .finite _ _ _ _ ⟨by omega, by omega, by omega, by omega, by omega⟩, ?_⟩
    unfold bitsOf magnitude
    omega
  · have : (unpackExponent b).toNat ≠ 2047 := fun h => hones (BitVec.eq_of_toNat_eq h)
    have : (unpackExponent b).toNat ≠ 0 := fun h => hleast (BitVec.eq_of_toNat_eq h)
    have hfull := toNat_implicit (unpackMantissa b)
    refine ⟨_, _, .finite _ _ _ _ ⟨by omega, by omega, by omega, by omega, by omega⟩, ?_⟩
    unfold bitsOf magnitude
    omega

/-! ## Comparing by bits -/

theorem Stands.le {u : UnpackedFloat} {s : Sign} {n : Nat} (h : Stands u s n) :
    n ≤ 0x7FF0000000000000 := by
  cases h with
  | zero => decide
  | finite s m e hm h => exact h.magnitude_lt.le
  | infinity => exact le_rfl

theorem rank_eq {bits : UInt64} {s : Sign} {n : Nat} (hn : n ≤ 0x7FF0000000000000)
    (h : bits.toNat = bitsOf s n) : rank bits = s.apply n := by
  cases s with
  | negative =>
    change bits.toNat = 1 * 2 ^ 63 + n at h
    show _ = -(n : Int)
    rw [rank, if_neg (by omega)]
    omega
  | positive =>
    change bits.toNat = 0 * 2 ^ 63 + n at h
    show _ = (n : Int)
    rw [rank, if_pos (by omega)]
    omega

/-- A number is read back as itself. -/
theorem toBits_ofBits {bits : UInt64} (h : IsNumber bits) : (Float.ofBits bits).toBits = bits := by
  obtain ⟨s, n, hu, hbits⟩ := stands_unpack (b := bits.toBitVec) h
  apply UInt64.toNat_inj.mp
  exact (toNat_pack hu).trans hbits.symm

theorem stands_ofBits {bits : UInt64} (h : IsNumber bits) :
    ∃ s n, Stands (Float.ofBits bits).toModel.unpack s n ∧ s.apply n = rank bits := by
  obtain ⟨s, n, hu, hbits⟩ := stands_unpack (b := bits.toBitVec) h
  refine ⟨s, n, ?_, (rank_eq hu.le hbits).symm⟩
  show Stands (UnpackedFloat.unpack Format.binary64 (Float.ofBits bits).toBits.toBitVec) s n
  rwa [toBits_ofBits h]

theorem lt_iff {a b : UInt64} (ha : IsNumber a) (hb : IsNumber b) :
    Float.ofBits a < Float.ofBits b ↔ rank a < rank b := by
  obtain ⟨s, m, hu, hs⟩ := stands_ofBits ha
  obtain ⟨t, n, hv, ht⟩ := stands_ofBits hb
  show decide ((UnpackedFloat.compare _ _ == some Ordering.lt) = true) = true ↔ _
  rw [decide_eq_true_iff, compare_stands hu hv, hs, ht, beq_iff_eq, Option.some.injEq, compare_lt_iff_lt]

theorem beq_iff {a b : UInt64} (ha : IsNumber a) (hb : IsNumber b) :
    (Float.ofBits a == Float.ofBits b) = true ↔ rank a = rank b := by
  obtain ⟨s, m, hu, hs⟩ := stands_ofBits ha
  obtain ⟨t, n, hv, ht⟩ := stands_ofBits hb
  show (UnpackedFloat.compare _ _ == some Ordering.eq) = true ↔ _
  rw [compare_stands hu hv, hs, ht, beq_iff_eq, Option.some.injEq, compare_eq_iff_eq]

/-- Bits that are not a number's are read as NaN. -/
theorem unpack_of_not_isNumber {bits : UInt64} (h : ¬ IsNumber bits) :
    (Float.ofBits bits).toModel.unpack = .notANumber := by
  have hnan : UnpackedFloat.unpack Format.binary64 bits.toBitVec = .notANumber := by
    have hb : bits.toBitVec.toNat < 2 ^ 64 := bits.toBitVec.isLt
    have hmantissa := toNat_unpackMantissa bits.toBitVec
    have hexponent := toNat_unpackExponent bits.toBitVec
    have hlt : ¬ bits.toBitVec.toNat % 2 ^ 63 ≤ 0x7FF0000000000000 := h
    have hones : @unpackExponent Format.binary64 bits.toBitVec = -1#_ := by
      apply BitVec.eq_of_toNat_eq
      show _ = 2047
      omega
    have hsome : @unpackMantissa Format.binary64 bits.toBitVec ≠ 0#_ := by
      intro hzero
      rw [hzero] at hmantissa
      change 0 = _ at hmantissa
      omega
    simp only [UnpackedFloat.unpack]
    rw [if_pos hones, if_neg hsome]
  show UnpackedFloat.unpack Format.binary64 (UnpackedFloat.pack Format.binary64
    (UnpackedFloat.unpack Format.binary64 bits.toBitVec)) = _
  rw [hnan]
  rfl

/-- What has an order is a number. -/
theorem isNumber_of_compare {a b : UInt64} {o : Ordering}
    (h : (Float.ofBits a).toModel.unpack.compare (Float.ofBits b).toModel.unpack = some o) :
    IsNumber a ∧ IsNumber b := by
  constructor
  · by_contra ha
    rw [unpack_of_not_isNumber ha] at h
    cases h
  · by_contra hb
    rw [unpack_of_not_isNumber hb] at h
    cases hu : (Float.ofBits a).toModel.unpack <;> rw [hu] at h <;> cases h

theorem isNumber_of_lt {a b : UInt64} (h : Float.ofBits a < Float.ofBits b) :
    IsNumber a ∧ IsNumber b := by
  change decide ((UnpackedFloat.compare _ _ == some Ordering.lt) = true) = true at h
  exact isNumber_of_compare (beq_iff_eq.mp (decide_eq_true_iff.mp h))

theorem isNumber_of_beq {a b : UInt64} (h : (Float.ofBits a == Float.ofBits b) = true) :
    IsNumber a ∧ IsNumber b := by
  change (UnpackedFloat.compare _ _ == some Ordering.eq) = true at h
  exact isNumber_of_compare (beq_iff_eq.mp h)

/-! ## Rounding -/

/-- An extended mantissa as a number of quarters, of which the last one only says that there is more. -/
def quarters (em : ExtendedMantissa) : Nat := 4 * em.mantissa + 2 * em.roundBit.toNat + em.stickyBit.toNat

theorem roundedMantissa_mono {em em' : ExtendedMantissa} (h : quarters em ≤ quarters em') :
    em.roundedMantissa ≤ em'.roundedMantissa := by
  obtain ⟨m, r, k⟩ := em
  obtain ⟨m', r', k'⟩ := em'
  simp only [quarters] at h
  unfold ExtendedMantissa.roundedMantissa
  cases r <;> cases k <;> cases r' <;> cases k' <;>
    · simp only [Bool.toNat_false, Bool.toNat_true] at h
      simp only [ExtendedMantissa.accuracy, Accuracy.roundToNearestEven]
      omega

theorem quarters_shiftRightOne_mono {em em' : ExtendedMantissa} (h : quarters em ≤ quarters em') :
    quarters em.shiftRightOne ≤ quarters em'.shiftRightOne := by
  obtain ⟨m, r, k⟩ := em
  obtain ⟨m', r', k'⟩ := em'
  simp only [quarters] at h
  have hodd : ∀ a : Nat, (a % 2 != 0).toNat = a % 2 := by
    intro a
    rcases Nat.mod_two_eq_zero_or_one a with ha | ha <;> rw [ha] <;> rfl
  simp only [ExtendedMantissa.shiftRightOne, quarters, hodd]
  cases r <;> cases k <;> cases r' <;> cases k' <;>
    · simp only [Bool.toNat_false, Bool.toNat_true, Bool.or_false, Bool.or_true] at h ⊢
      omega

theorem quarters_shift_mono {em em' : ExtendedMantissa} (h : quarters em ≤ quarters em') (k : Nat) :
    quarters (em >>> k) ≤ quarters (em' >>> k) := by
  induction k with
  | zero => exact h
  | succ k ih => exact quarters_shiftRightOne_mono ih

theorem mantissa_shift (em : ExtendedMantissa) (k : Nat) : (em >>> k).mantissa = em.mantissa / 2 ^ k := by
  induction k with
  | zero => exact (Nat.div_one _).symm
  | succ k ih =>
    show (em >>> k).mantissa / 2 = _
    rw [ih, Nat.div_div_eq_div_mul, pow_succ]

theorem le_roundedMantissa (em : ExtendedMantissa) :
    em.mantissa ≤ em.roundedMantissa ∧ em.roundedMantissa ≤ em.mantissa + 1 := by
  obtain ⟨m, r, k⟩ := em
  unfold ExtendedMantissa.roundedMantissa
  cases r <;> cases k <;> simp only [ExtendedMantissa.accuracy, Accuracy.roundToNearestEven] <;> omega

/-- The leading 53 bits of a natural number, and whether there is more. -/
def leading (n : Nat) : ExtendedMantissa :=
  (ExtendedMantissa.mk (n <<< (52 - n.log2)) false false) >>> (n.log2 - 52)

/-- The leading 53 bits, rounded. -/
def rounded (n : Nat) : Nat := (leading n).roundedMantissa

theorem leading_bounds {n : Nat} (h : 0 < n) :
    2 ^ 52 ≤ (leading n).mantissa ∧ (leading n).mantissa < 2 ^ 53 := by
  have hlow := Nat.log2_self_le h.ne'
  have hhigh := Nat.lt_log2_self (n := n)
  rw [leading, mantissa_shift, Nat.shiftLeft_eq]
  rcases le_total n.log2 52 with hle | hle
  · -- a short number is scaled up
    have hscale : 2 ^ n.log2 * 2 ^ (52 - n.log2) = 2 ^ 52 := by rw [← pow_add, Nat.add_sub_of_le hle]
    have hup := Nat.mul_lt_mul_of_pos_right hhigh (Nat.two_pow_pos (52 - n.log2))
    rw [pow_succ, Nat.mul_right_comm, hscale] at hup
    rw [Nat.sub_eq_zero_of_le hle, pow_zero, Nat.div_one]
    exact ⟨hscale ▸ Nat.mul_le_mul_right _ hlow, hup⟩
  · -- a long number loses its last bits
    have hscale : 2 ^ 52 * 2 ^ (n.log2 - 52) = 2 ^ n.log2 := by rw [← pow_add, Nat.add_sub_of_le hle]
    have hpos := Nat.two_pow_pos (n.log2 - 52)
    rw [Nat.sub_eq_zero_of_le hle, pow_zero, Nat.mul_one, Nat.le_div_iff_mul_le hpos,
      Nat.div_lt_iff_lt_mul hpos, hscale]
    refine ⟨hlow, hhigh.trans_eq ?_⟩
    rw [pow_succ, ← hscale, pow_succ 2 52]
    ring

theorem rounded_bounds {n : Nat} (h : 0 < n) : 2 ^ 52 ≤ rounded n ∧ rounded n ≤ 2 ^ 53 := by
  have hround := le_roundedMantissa (leading n)
  have hlead := leading_bounds h
  unfold rounded
  omega

/-- Where the float nearest to a natural number stands. -/
def natRank (n : Nat) : Nat := if n = 0 then 0 else (n.log2 + 1022) * 2 ^ 52 + rounded n

/-- **Rounding is monotone.** -/
theorem natRank_mono {m n : Nat} (h : m ≤ n) : natRank m ≤ natRank n := by
  rcases Nat.eq_zero_or_pos m with rfl | hm
  · exact Nat.zero_le _
  · have hn := hm.trans_le h
    have hmb := rounded_bounds hm
    have hnb := rounded_bounds hn
    have hlog : m.log2 ≤ n.log2 := (Nat.le_log2 hn.ne').mpr ((Nat.log2_self_le hm.ne').trans h)
    rw [natRank, natRank, if_neg hm.ne', if_neg hn.ne']
    rcases hlog.lt_or_eq with hlt | heq
    · omega
    · have : rounded m ≤ rounded n := by
        unfold rounded leading
        rw [heq]
        apply roundedMantissa_mono
        apply quarters_shift_mono
        have := Nat.mul_le_mul_right (2 ^ (52 - n.log2)) h
        simp only [quarters, Nat.shiftLeft_eq]
        omega
      omega

theorem shiftToTarget_eq {m k : Nat} {e : Int}
    (hk : (max ((m.log2 : Int) + 1 + e - 53) (-1074) - e).toNat = k) :
    shiftToTargetExponent Format.binary64 m e .exact = (ExtendedMantissa.mk m false false >>> k, e + k) := by
  subst hk
  rfl

theorem log2_scaled {n : Nat} (h : 0 < n) : (n <<< (52 - n.log2)).log2 = max n.log2 52 := by
  have hlow := Nat.log2_self_le h.ne'
  have hhigh := Nat.lt_log2_self (n := n)
  have hpos := Nat.two_pow_pos (52 - n.log2)
  have hmax : max n.log2 52 = n.log2 + (52 - n.log2) := by omega
  rw [Nat.shiftLeft_eq, Nat.log2_eq_iff (Nat.mul_pos h hpos).ne', hmax]
  refine ⟨?_, ?_⟩
  · rw [pow_add]
    exact Nat.mul_le_mul_right _ hlow
  · rw [add_right_comm, pow_add]
    exact Nat.mul_lt_mul_of_pos_right hhigh hpos

/-- Rounding to binary64 keeps the leading bits. -/
theorem stands_round {n : Nat} (h : 0 < n) (hn : n < 2 ^ 64) :
    Stands (UnpackedFloat.round Format.binary64 .positive n 0) .positive (natRank n) := by
  have hlog : n.log2 < 64 := (Nat.log2_lt h.ne').mpr hn
  obtain ⟨hlow, hhigh⟩ := rounded_bounds h
  have hscale : decreaseExponent n 0 (Format.binary64.targetExponent (totalExponent n 0)) =
      (n <<< (52 - n.log2), -((52 - n.log2 : Nat) : Int)) := by
    have hk : (0 - max ((n.log2 : Int) + 1 + 0 - 53) (-1074)).toNat = 52 - n.log2 := by omega
    show (n <<< (0 - max ((n.log2 : Int) + 1 + 0 - 53) (-1074)).toNat,
      (0 : Int) - (0 - max ((n.log2 : Int) + 1 + 0 - 53) (-1074)).toNat) = _
    rw [hk, zero_sub]
  have hfirst : shiftToTargetExponent Format.binary64 (n <<< (52 - n.log2))
      (-((52 - n.log2 : Nat) : Int)) .exact = (leading n, (n.log2 : Int) - 52) := by
    rw [shiftToTarget_eq (k := n.log2 - 52) (by rw [log2_scaled h]; omega)]
    exact Prod.ext rfl (by dsimp only; omega)
  have hsecond : ∃ m e, shiftToTargetExponent Format.binary64 (rounded n) ((n.log2 : Int) - 52) .exact =
      (⟨m, false, false⟩, e) ∧ Canonical m e ∧ magnitude m e = natRank n := by
    have hrank : natRank n = (n.log2 + 1022) * 2 ^ 52 + rounded n := if_neg h.ne'
    rw [hrank]
    rcases hhigh.lt_or_eq with hlt | heq
    · have hlog' : (rounded n).log2 = 52 := (Nat.log2_eq_iff (by omega)).mpr ⟨hlow, hlt⟩
      refine ⟨rounded n, n.log2 - 52, ?_, ⟨by omega, hlt, by omega, .inr hlow, by omega⟩, ?_⟩
      · rw [shiftToTarget_eq (k := 0) (by rw [hlog']; omega)]
        exact Prod.ext rfl (add_zero _)
      · unfold magnitude
        omega
    · -- rounding up has carried into one more bit
      refine ⟨2 ^ 52, n.log2 - 51, ?_, ⟨by omega, by omega, by omega, .inr le_rfl, by omega⟩, ?_⟩
      · rw [heq, shiftToTarget_eq (k := 1) (by rw [Nat.log2_two_pow]; omega)]
        exact Prod.ext rfl (by dsimp only; omega)
      · unfold magnitude
        omega
  obtain ⟨m, e, hlast, hcanonical, hmagnitude⟩ := hsecond
  have hround : UnpackedFloat.round Format.binary64 .positive n 0 = .finite .positive m e hcanonical.1 := by
    have hm : m ≠ 0 := hcanonical.1.ne'
    have hr : (leading n).roundedMantissa = rounded n := rfl
    simp only [UnpackedFloat.round, hscale, roundWithAccuracy, hfirst, hr, hlast, dif_neg hm]
  rw [hround, ← hmagnitude]
  exact .finite _ _ _ _ hcanonical

theorem stands_ofNat (n : Nat) (hn : n < 2 ^ 64) :
    Stands (UnpackedFloat.ofNat Format.binary64 n) .positive (natRank n) := by
  rcases Nat.eq_zero_or_pos n with rfl | h
  · exact .zero _
  · have hpos : compare (n : Int) 0 = .gt := compare_gt_iff_gt.mpr (by omega)
    unfold UnpackedFloat.ofNat UnpackedFloat.ofInt UnpackedFloat.normalize
    rw [hpos]
    exact stands_round h hn

/-! ## Whole numbers as floats -/

theorem toNat_toBits_toFloat (n : UInt64) : n.toFloat.toBits.toNat = natRank n.toNat :=
  (toNat_pack (stands_ofNat n.toNat n.toNat_lt)).trans (by simp [bitsOf, Sign.toBitVec])

theorem natRank_le (n : UInt64) : natRank n.toNat ≤ 0x7FF0000000000000 :=
  (stands_ofNat n.toNat n.toNat_lt).le

theorem isNumber_toFloat (n : UInt64) : IsNumber n.toFloat.toBits := by
  unfold IsNumber
  have := natRank_le n
  rw [toNat_toBits_toFloat]
  omega

theorem rank_toFloat (n : UInt64) : rank n.toFloat.toBits = natRank n.toNat := by
  have := natRank_le n
  rw [rank, toNat_toBits_toFloat, if_pos (by omega)]

theorem Stands.neg {u : UnpackedFloat} {s : Sign} {n : Nat} (h : Stands u s n) :
    Stands u.neg (-s) n := by
  cases h with
  | zero s => exact .zero _
  | finite s m e hm h => exact .finite _ m e hm h
  | infinity s => exact .infinity _

theorem isNumber_of_bitsOf {bits : UInt64} {s : Sign} {n : Nat} (hn : n ≤ 0x7FF0000000000000)
    (h : bits.toNat = bitsOf s n) : IsNumber bits := by
  unfold IsNumber
  unfold bitsOf at h
  omega

/-- Negation goes to the opposite place. -/
theorem neg_toBits {f : Float} (h : IsNumber f.toBits) :
    IsNumber (-f).toBits ∧ rank (-f).toBits = -rank f.toBits := by
  obtain ⟨s, n, hu, hbits⟩ := stands_unpack (b := f.toBits.toBitVec) h
  have hneg : (-f).toBits.toNat = bitsOf (-s) n := toNat_pack hu.neg
  refine ⟨isNumber_of_bitsOf hu.le hneg, ?_⟩
  rw [rank_eq hu.le hneg, rank_eq hu.le hbits]
  cases s with
  | positive => rfl
  | negative => exact (Int.neg_neg _).symm

end Binary64
