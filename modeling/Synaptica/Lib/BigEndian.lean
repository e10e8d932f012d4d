import Synaptica.Lib.LexOrder

/-!
# Fixed-width big-endian numbers

`beBytes w n` writes `n` as `w` bytes, most significant first, and `beValue` reads such a string
back. The point of the encoding is `beBytes_lt_iff`: within the width, byte order **is** numeric
order, so a store that sorts bytes sorts the numbers it holds.
-/

namespace BigEndian

/-- The `w` low-order bytes of `n`, most significant first. -/
def beBytes : Nat → Nat → Bytes
  | 0, _ => []
  | w + 1, n => UInt8.ofNat (n / 256 ^ w) :: beBytes w (n % 256 ^ w)

/-- The number a byte string spells, most significant byte first. -/
def beValue : Bytes → Nat
  | [] => 0
  | b :: bs => b.toNat * 256 ^ bs.length + beValue bs

@[simp] theorem length_beBytes (w n : Nat) : (beBytes w n).length = w := by
  induction w generalizing n with
  | zero => rfl
  | succ w ih => simp [beBytes, ih]

/-- Within the width the leading byte is the exact quotient. -/
theorem toNat_leading {w n : Nat} (h : n < 256 ^ (w + 1)) :
    (UInt8.ofNat (n / 256 ^ w)).toNat = n / 256 ^ w := by
  have hlt : n / 256 ^ w < 256 := by
    rw [Nat.div_lt_iff_lt_mul (by positivity)]
    rwa [pow_succ, mul_comm] at h
  rw [UInt8.toNat_ofNat']
  exact Nat.mod_eq_of_lt hlt

theorem beValue_beBytes {w n : Nat} (h : n < 256 ^ w) : beValue (beBytes w n) = n := by
  induction w generalizing n with
  | zero =>
    simp only [pow_zero] at h
    simp only [beBytes, beValue]
    omega
  | succ w ih =>
    have hmod : n % 256 ^ w < 256 ^ w := Nat.mod_lt _ (by positivity)
    rw [beBytes, beValue, toNat_leading h, length_beBytes, ih hmod]
    rw [mul_comm]
    exact Nat.div_add_mod n (256 ^ w)

theorem beValue_lt (bs : Bytes) : beValue bs < 256 ^ bs.length := by
  induction bs with
  | nil => simp [beValue]
  | cons b bs ih =>
    rw [beValue, List.length_cons, pow_succ]
    have hb : b.toNat < 256 := UInt8.toNat_lt b
    nlinarith

theorem beBytes_beValue (bs : Bytes) : beBytes bs.length (beValue bs) = bs := by
  induction bs with
  | nil => rfl
  | cons b bs ih =>
    have hlt := beValue_lt bs
    have hdiv : (b.toNat * 256 ^ bs.length + beValue bs) / 256 ^ bs.length = b.toNat := by
      rw [mul_comm, Nat.mul_add_div (by positivity), Nat.div_eq_of_lt hlt, add_zero]
    have hmod : (b.toNat * 256 ^ bs.length + beValue bs) % 256 ^ bs.length = beValue bs := by
      rw [mul_comm, Nat.mul_add_mod, Nat.mod_eq_of_lt hlt]
    rw [List.length_cons, beBytes, beValue, hdiv, hmod, ih, UInt8.ofNat_toNat]

theorem beBytes_inj {w n m : Nat} (hn : n < 256 ^ w) (hm : m < 256 ^ w) :
    beBytes w n = beBytes w m ↔ n = m := by
  constructor
  · intro h
    have := congrArg beValue h
    rwa [beValue_beBytes hn, beValue_beBytes hm] at this
  · rintro rfl
    rfl

/-- **Byte order is numeric order** for numbers that fit the width. -/
theorem beBytes_lt_iff {w n m : Nat} (hn : n < 256 ^ w) (hm : m < 256 ^ w) :
    beBytes w n < beBytes w m ↔ n < m := by
  induction w generalizing n m with
  | zero =>
    simp only [pow_zero] at hn hm
    simp only [beBytes, lt_self_iff_false, false_iff]
    omega
  | succ w ih =>
    have hpos : 0 < 256 ^ w := by positivity
    have hn' : n % 256 ^ w < 256 ^ w := Nat.mod_lt _ hpos
    have hm' : m % 256 ^ w < 256 ^ w := Nat.mod_lt _ hpos
    have hne := Nat.div_add_mod n (256 ^ w)
    have hme := Nat.div_add_mod m (256 ^ w)
    rw [beBytes, beBytes, List.cons_lt_cons_iff, ih hn' hm', UInt8.lt_iff_toNat_lt,
      ← UInt8.toNat_inj, toNat_leading hn, toNat_leading hm]
    constructor
    · rintro (hq | ⟨hq, hr⟩)
      · exact Nat.lt_of_div_lt_div hq
      · rw [← hne, ← hme, hq]
        omega
    · intro hnm
      rcases Nat.lt_or_ge (n / 256 ^ w) (m / 256 ^ w) with hq | hq
      · exact Or.inl hq
      · have hqe : n / 256 ^ w = m / 256 ^ w :=
          le_antisymm (Nat.div_le_div_right hnm.le) hq
        refine Or.inr ⟨hqe, ?_⟩
        rw [← hne, ← hme, hqe] at hnm
        omega

end BigEndian
