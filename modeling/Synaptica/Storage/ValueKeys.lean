import Synaptica.Storage.GraphIsolation

/-!
# Values as index keys

`encode_value_comparable` turns a value into bytes whose order is meant to be the order of the
values. The type tag comes first; an integer has its sign bit flipped, a float the sign bit or all
of them, and a string is escaped so that two NULs can end it.

* `encode_integer_lt_iff`, `encode_string_lt_iff`, `encode_bool_lt_iff` — strict order within a type.
* `eq_of_encode_isPrefix` — among NULL, booleans, integers and strings no encoding extends another one, so
  encodings can be concatenated.
* `encode_float_agrees_iff` — the float encoding orders numbers and tells them apart except around
  the negative zero: its sign bit is flipped like that of a positive number, which makes it the
  least key of all.
-/

namespace Synaptica.Storage

open BigEndian

variable (rt : Runtime)

/-! ## Flipping the sign bit -/

/-- Flipping the top bit adds `2 ^ 63` around. -/
theorem toNat_xor_sign (x : UInt64) :
    (x ^^^ 0x8000000000000000).toNat = (x.toNat + 2 ^ 63) % 2 ^ 64 := by
  have hx := UInt64.toNat_lt x
  have hdiv : (x.toNat ^^^ 2 ^ 63) / 2 ^ 63 = x.toNat / 2 ^ 63 ^^^ 1 := by
    rw [Nat.xor_div_two_pow]
    rfl
  have hmod : (x.toNat ^^^ 2 ^ 63) % 2 ^ 63 = x.toNat % 2 ^ 63 := by
    rw [Nat.xor_mod_two_pow, Nat.mod_self, Nat.xor_zero]
  have hsplit := Nat.div_add_mod (x.toNat ^^^ 2 ^ 63) (2 ^ 63)
  rw [UInt64.toNat_xor]
  change x.toNat ^^^ 2 ^ 63 = _
  rcases (by omega : x.toNat / 2 ^ 63 = 0 ∨ x.toNat / 2 ^ 63 = 1) with hq | hq
  · rw [hdiv, hmod, hq] at hsplit
    change 2 ^ 63 * 1 + _ = _ at hsplit
    omega
  · rw [hdiv, hmod, hq] at hsplit
    change 2 ^ 63 * 0 + _ = _ at hsplit
    omega

/-! ## Integers -/

/-- Flipping the top bit of the first byte is flipping it in the number. -/
theorem encode_integer (i : Int64) :
    encodeValueComparable rt (.integer i) =
      0x02 :: beBytes 8 (i.toUInt64 ^^^ 0x8000000000000000).toNat := by
  have hpow : (256 : Nat) ^ 7 = 2 ^ 56 := by norm_num
  have hfirst : (i.toUInt64 ^^^ 0x8000000000000000).toNat / 256 ^ 7 =
      i.toUInt64.toNat / 256 ^ 7 ^^^ 0x80 := by
    rw [UInt64.toNat_xor, hpow, Nat.xor_div_two_pow]
    rfl
  have hrest : (i.toUInt64 ^^^ 0x8000000000000000).toNat % 256 ^ 7 =
      i.toUInt64.toNat % 256 ^ 7 := by
    rw [UInt64.toNat_xor, hpow, Nat.xor_mod_two_pow]
    exact Nat.xor_zero _
  have hbytes : ∀ n, beBytes 8 n = UInt8.ofNat (n / 256 ^ 7) :: beBytes 7 (n % 256 ^ 7) :=
    fun _ => rfl
  rw [encodeValueComparable, hbytes, hbytes, hfirst, hrest, UInt8.ofNat_xor]
  rfl

theorem flipped_lt_iff (i j : Int64) :
    (i.toUInt64 ^^^ 0x8000000000000000).toNat < (j.toUInt64 ^^^ 0x8000000000000000).toNat ↔
      i < j := by
  have hi := UInt64.toNat_lt i.toUInt64
  have hj := UInt64.toNat_lt j.toUInt64
  have htoInt : ∀ k : Int64, k.toInt =
      if k.toUInt64.toNat < 2 ^ 63 then (k.toUInt64.toNat : Int)
      else k.toUInt64.toNat - 2 ^ 64 := by
    intro k
    rw [Int64.toInt, BitVec.toInt_eq_toNat_cond]
    change (if 2 * k.toUInt64.toNat < 2 ^ 64 then (k.toUInt64.toNat : Int)
      else k.toUInt64.toNat - (2 ^ 64 : Nat)) = _
    split <;> split <;> omega
  rw [toNat_xor_sign, toNat_xor_sign, Int64.lt_iff_toInt_lt, htoInt i, htoInt j]
  split <;> split <;> omega

theorem toNat_lt_width (x : UInt64) : x.toNat < 256 ^ 8 := by
  have := UInt64.toNat_lt x
  norm_num
  omega

theorem encode_integer_lt_iff (i j : Int64) :
    encodeValueComparable rt (.integer i) < encodeValueComparable rt (.integer j) ↔ i < j := by
  rw [encode_integer, encode_integer, List.cons_lt_cons_iff,
    beBytes_lt_iff (toNat_lt_width _) (toNat_lt_width _), flipped_lt_iff]
  simp

/-! ## Booleans -/

theorem encode_bool_lt_iff (a b : Bool) :
    encodeValueComparable rt (.bool a) < encodeValueComparable rt (.bool b) ↔
      a = false ∧ b = true := by
  cases a <;> cases b <;> simp [encodeValueComparable, List.cons_lt_cons_iff]

/-! ## Strings -/

/-- The escaped bytes of a string, with the two NULs that end it. -/
def escapeBytes (bs : Bytes) : Bytes := (bs.flatMap fun b => if b = 0 then [0, 1] else [b]) ++ [0, 0]

theorem escapeString_eq (s : String) : escapeString s = escapeBytes (utf8 s) := rfl

theorem escapeBytes_cons (b : UInt8) (bs : Bytes) :
    escapeBytes (b :: bs) = (if b = 0 then [0, 1] else [b]) ++ escapeBytes bs := by
  simp [escapeBytes]

theorem escapeBytes_lt_iff (a b : Bytes) : escapeBytes a < escapeBytes b ↔ a < b := by
  have hpos : ∀ x : UInt8, x ≠ 0 → (0 : UInt8) < x := fun x hx =>
    lt_of_le_of_ne (UInt8.le_iff_toNat_le.mpr (Nat.zero_le _)) hx.symm
  have hnil : escapeBytes [] = [0, 0] := rfl
  induction a generalizing b with
  | nil =>
    cases b with
    | nil => simp
    | cons y b =>
      rw [escapeBytes_cons, hnil]
      by_cases hy : y = 0
      · simp [hy, List.cons_lt_cons_iff]
      · simp [hy, List.cons_lt_cons_iff, hpos y hy]
  | cons x a ih =>
    cases b with
    | nil =>
      rw [escapeBytes_cons, hnil]
      by_cases hx : x = 0
      · simp [hx, List.cons_lt_cons_iff]
      · simp [hx, List.cons_lt_cons_iff]
    | cons y b =>
      have hrest := ih b
      rw [escapeBytes_cons, escapeBytes_cons]
      by_cases hx : x = 0
      · by_cases hy : y = 0
        · simp [hx, hy, hrest]
        · simp [hx, hy, List.cons_lt_cons_iff, hpos y hy, Ne.symm hy]
      · by_cases hy : y = 0
        · simp [hx, hy, List.cons_lt_cons_iff]
        · simp [hx, hy, List.cons_lt_cons_iff, hrest]

/-- The end of a string can be told from its continuation. -/
theorem eq_of_escapeBytes_isPrefix {a b rest : Bytes} (h : escapeBytes a <+: escapeBytes b ++ rest) :
    a = b := by
  have hnil : escapeBytes [] = [0, 0] := rfl
  induction a generalizing b with
  | nil =>
    cases b with
    | nil => rfl
    | cons y b =>
      rw [escapeBytes_cons, hnil] at h
      by_cases hy : y = 0
      · simp [hy] at h
      · simp [hy, Ne.symm hy] at h
  | cons x a ih =>
    cases b with
    | nil =>
      rw [escapeBytes_cons, hnil] at h
      by_cases hx : x = 0
      · simp [hx] at h
      · simp [hx] at h
    | cons y b =>
      rw [escapeBytes_cons, escapeBytes_cons] at h
      by_cases hx : x = 0
      · by_cases hy : y = 0
        · simp only [hx, hy, if_true, List.cons_append, List.nil_append, List.cons_prefix_cons,
            true_and] at h
          rw [hx, hy, ih h]
        · simp [hx, hy, Ne.symm hy] at h
      · by_cases hy : y = 0
        · simp [hx, hy] at h
        · simp only [hx, hy, if_false, List.cons_append, List.nil_append,
            List.cons_prefix_cons] at h
          rw [h.1, ih h.2]

theorem encode_string_lt_iff (s t : String) :
    encodeValueComparable rt (.string s) < encodeValueComparable rt (.string t) ↔
      utf8 s < utf8 t := by
  rw [encodeValueComparable, encodeValueComparable, escapeString_eq, escapeString_eq,
    List.cons_lt_cons_iff, escapeBytes_lt_iff]
  simp

/-! ## Concatenation -/

/-- The first byte of an encoding. -/
def keyTag : Value → UInt8
  | .null => 0x00
  | .bool _ => 0x01
  | .integer _ => 0x02
  | .float _ => 0x03
  | .string _ => 0x04
  | _ => 0xFF

theorem encode_eq_cons (v : Value) : ∃ body, encodeValueComparable rt v = keyTag v :: body := by
  cases v with
  | integer i => exact ⟨_, encode_integer rt i⟩
  | null | bool | float | string => exact ⟨_, rfl⟩
  | _ =>
    simp only [encodeValueComparable]
    split <;> exact ⟨_, rfl⟩

/-- NULL, a boolean, an integer or a string. -/
def isKeyValue : Value → Bool
  | .null | .bool _ | .integer _ | .string _ => true
  | _ => false

theorem eq_of_prefix_append {a b rest : Bytes} (hlen : a.length = b.length)
    (h : a <+: b ++ rest) : a = b := by
  have hprefix : a <+: b :=
    List.prefix_of_prefix_length_le h (List.prefix_append b rest) hlen.le
  exact hprefix.eq_of_length hlen

/-- **No encoding extends the encoding of a key value**, whatever follows it. -/
theorem eq_of_encode_isPrefix {v w : Value} (hw : isKeyValue w) (rest : Bytes)
    (h : encodeValueComparable rt v <+: encodeValueComparable rt w ++ rest) : v = w := by
  have htag : keyTag v = keyTag w := by
    obtain ⟨body, hv⟩ := encode_eq_cons rt v
    obtain ⟨body', hw⟩ := encode_eq_cons rt w
    rw [hv, hw, List.cons_append, List.cons_prefix_cons] at h
    exact h.1
  cases w with
  | null =>
    cases v with
    | null => rfl
    | _ => cases htag
  | bool b =>
    cases v with
    | bool a =>
      have heq := eq_of_prefix_append (by simp [encodeValueComparable]) h
      simp only [encodeValueComparable, List.cons.injEq, true_and, and_true] at heq
      cases a <;> cases b <;> simp_all
    | _ => cases htag
  | integer j =>
    cases v with
    | integer i =>
      have heq := eq_of_prefix_append (by simp [encode_integer]) h
      have hij := encode_integer_lt_iff rt i j
      have hji := encode_integer_lt_iff rt j i
      rw [heq, lt_self_iff_false, false_iff] at hij hji
      rw [Int64.le_antisymm (Int64.not_lt.mp hji) (Int64.not_lt.mp hij)]
    | _ => cases htag
  | string t =>
    cases v with
    | string s =>
      rw [encodeValueComparable, encodeValueComparable, List.cons_append,
        List.cons_prefix_cons, escapeString_eq, escapeString_eq] at h
      rw [utf8_injective (eq_of_escapeBytes_isPrefix h.2)]
    | _ => cases htag
  | _ => cases hw

/-! ## Ranges -/

/-- Both are booleans, both are integers or both are strings. -/
def SameType : Value → Value → Prop
  | .bool _, .bool _ | .integer _, .integer _ | .string _, .string _ => True
  | _, _ => False

/-- The order of values of one type: integers numerically, strings by their bytes. -/
def ValueLt : Value → Value → Prop
  | .bool a, .bool b => a = false ∧ b = true
  | .integer i, .integer j => i < j
  | .string s, .string t => utf8 s < utf8 t
  | _, _ => False

theorem ValueLt.sameType {v w : Value} (h : ValueLt v w) : SameType v w := by
  cases v <;> cases w <;> first | trivial | exact h.elim

theorem SameType.symm {v w : Value} (h : SameType v w) : SameType w v := by
  cases v <;> cases w <;> first | trivial | exact h.elim

theorem SameType.trans {u v w : Value} (h : SameType u v) (h' : SameType v w) : SameType u w := by
  cases u <;> cases v <;> first | exact h.elim | (cases w <;> first | trivial | exact h'.elim)

theorem SameType.isKeyValue_left {v w : Value} (h : SameType v w) : isKeyValue v := by
  cases v <;> cases w <;> first | rfl | exact h.elim

theorem SameType.keyTag_eq {v w : Value} (h : SameType v w) : keyTag v = keyTag w := by
  cases v <;> cases w <;> first | rfl | exact h.elim

theorem SameType.of_keyTag {u v w : Value} (h : SameType u v) (hw : isKeyValue w)
    (htag : keyTag w = keyTag u) : SameType u w := by
  cases u <;> cases w <;> first | trivial | cases htag | cases hw | (cases v <;> exact h.elim)

/-- **Within a type, keys are ordered as the values are.** -/
theorem encode_lt_iff {v w : Value} (h : SameType v w) :
    encodeValueComparable rt v < encodeValueComparable rt w ↔ ValueLt v w := by
  cases v <;> cases w <;> first | exact h.elim | skip
  · exact encode_bool_lt_iff rt _ _
  · exact encode_integer_lt_iff rt _ _
  · exact encode_string_lt_iff rt _ _

/-- Different key values stay apart, whatever follows them. -/
theorem encode_append_lt_iff {v w : Value} (hv : isKeyValue v) (hw : isKeyValue w) (hne : v ≠ w)
    (x y : Bytes) : encodeValueComparable rt v ++ x < encodeValueComparable rt w ++ y ↔
      encodeValueComparable rt v < encodeValueComparable rt w := by
  refine LexOrder.Incomparable.append_lt_append_iff ⟨fun h => hne ?_, fun h => hne ?_⟩ x y
  · exact eq_of_encode_isPrefix rt hw [] (by simpa using h)
  · exact (eq_of_encode_isPrefix rt hv [] (by simpa using h)).symm

/-- What lies in a range of keys. -/
theorem encode_range_iff {start stop v : Value} (h : SameType start stop) (hv : isKeyValue v)
    (rest : Bytes) :
    (encodeValueComparable rt start ≤ encodeValueComparable rt v ++ rest ∧
        encodeValueComparable rt v ++ rest < encodeValueComparable rt stop) ↔
      (start = v ∨ ValueLt start v) ∧ ValueLt v stop := by
  have hstart := h.isKeyValue_left
  have hstop := h.symm.isKeyValue_left
  -- neither end of the range is reached in the middle of a longer key
  have hlt : ∀ {w}, isKeyValue w → v ≠ w →
      (encodeValueComparable rt v ++ rest < encodeValueComparable rt w ↔
        encodeValueComparable rt v < encodeValueComparable rt w) := by
    intro w hw hne
    simpa using encode_append_lt_iff rt hv hw hne rest []
  constructor
  · rintro ⟨hlo, hhi⟩
    have htag : keyTag v = keyTag start := by
      obtain ⟨a, ha⟩ := encode_eq_cons rt start
      obtain ⟨b, hb⟩ := encode_eq_cons rt stop
      obtain ⟨c, hc⟩ := encode_eq_cons rt v
      have hp : [keyTag start] <+: encodeValueComparable rt start := ⟨a, ha.symm⟩
      have hp' : [keyTag start] <+: encodeValueComparable rt stop :=
        ⟨b, by rw [hb, h.keyTag_eq]; rfl⟩
      have hmid := LexOrder.prefix_of_between hp hp' hlo hhi.le
      rw [hc, List.cons_append, List.cons_prefix_cons] at hmid
      exact hmid.1.symm
    have hsame := h.of_keyTag hv htag
    have hstopne : v ≠ stop := by
      rintro rfl
      exact absurd hhi (not_lt.mpr (LexOrder.prefix_le (List.prefix_append _ _)))
    refine ⟨?_, (encode_lt_iff rt (hsame.symm.trans h)).mp ((hlt hstop hstopne).mp hhi)⟩
    by_cases heq : start = v
    · exact .inl heq
    · refine .inr ((encode_lt_iff rt hsame).mp (lt_of_le_of_ne (not_lt.mp fun hgt => ?_) fun hk => ?_))
      · exact absurd ((hlt hstart (Ne.symm heq)).mpr hgt) (not_lt.mpr hlo)
      · exact heq (eq_of_encode_isPrefix rt hv [] (by simp [hk]))
  · rintro ⟨hlo, hhi⟩
    refine ⟨?_, ?_⟩
    · rcases hlo with rfl | hlo
      · exact LexOrder.prefix_le (List.prefix_append _ _)
      · have hle := ((encode_lt_iff rt hlo.sameType).mpr hlo).le
        exact hle.trans (LexOrder.prefix_le (List.prefix_append _ _))
    · have hvstop := (encode_lt_iff rt hhi.sameType).mpr hhi
      have hne : v ≠ stop := by
        rintro rfl
        exact lt_irrefl _ hvstop
      exact (hlt hstop hne).mpr hvstop

/-! ## Floats -/

/-- The bits are not those of a NaN. -/
def IsNumber (bits : UInt64) : Prop := bits.toNat % 2 ^ 63 ≤ 0x7FF0000000000000

/-- Where a number stands: sign and magnitude, with both zeros in one place. -/
def floatRank (bits : UInt64) : Int :=
  if bits.toNat < 2 ^ 63 then bits.toNat else 2 ^ 63 - bits.toNat

/-- The bits of `-0.0`. -/
def negativeZero : UInt64 := 0x8000000000000000

theorem f64IsNonNegative_eq {bits : UInt64} (h : IsNumber bits) :
    f64IsNonNegative bits = decide (bits.toNat ≤ 2 ^ 63) := by
  have hbits := UInt64.toNat_lt bits
  have hmag : (bits &&& 0x7FFFFFFFFFFFFFFF).toNat = bits.toNat % 2 ^ 63 := by
    rw [UInt64.toNat_and]
    exact Nat.and_two_pow_sub_one_eq_mod bits.toNat 63
  have hzero : (bits &&& 0x7FFFFFFFFFFFFFFF) = 0 ↔ bits.toNat % 2 ^ 63 = 0 := by
    rw [← UInt64.toNat_inj, hmag]
    rfl
  have hle : (bits &&& 0x7FFFFFFFFFFFFFFF) ≤ 0x7FF0000000000000 := by
    rw [UInt64.le_iff_toNat_le, hmag]
    exact h
  rw [f64IsNonNegative, decide_eq_true hle, Bool.true_and, Bool.eq_iff_iff, Bool.or_eq_true,
    decide_eq_true_iff, decide_eq_true_iff, beq_iff_eq, hzero, UInt64.lt_iff_toNat_lt]
  change bits.toNat < 2 ^ 63 ∨ _ ↔ _
  omega

/-- The number a float key holds after its tag. -/
def floatKey (bits : UInt64) : Nat :=
  if bits.toNat < 2 ^ 63 then bits.toNat + 2 ^ 63
  else if bits.toNat = 2 ^ 63 then 0
  else 2 ^ 64 - 1 - bits.toNat

theorem encode_float {bits : UInt64} (h : IsNumber bits) :
    encodeValueComparable rt (.float bits) = 0x03 :: beBytes 8 (floatKey bits) := by
  have hbits := UInt64.toNat_lt bits
  have hkey : (if f64IsNonNegative bits then bits ^^^ 0x8000000000000000 else ~~~ bits).toNat =
      floatKey bits := by
    rw [f64IsNonNegative_eq h, floatKey]
    by_cases hle : bits.toNat ≤ 2 ^ 63
    · rw [decide_eq_true hle, if_pos rfl, toNat_xor_sign]
      split_ifs <;> omega
    · rw [decide_eq_false hle, if_neg (by decide), UInt64.toNat_not, UInt64.size]
      split_ifs <;> omega
  rw [encodeValueComparable, hkey]

theorem floatKey_lt_width (bits : UInt64) : floatKey bits < 256 ^ 8 := by
  have hbits := UInt64.toNat_lt bits
  have hpow : (256 : Nat) ^ 8 = 2 ^ 64 := by norm_num
  rw [hpow, floatKey]
  split_ifs <;> omega

/-- Keys and places of the three kinds of floats: the key of the negative zero is out of place. -/
theorem floatKey_cases (bits : UInt64) :
    (bits ≠ negativeZero ∧ ∃ n : Nat, floatKey bits = 2 ^ 63 + n ∧ floatRank bits = n) ∨
      (bits = negativeZero ∧ floatKey bits = 0 ∧ floatRank bits = 0) ∨
      (bits ≠ negativeZero ∧ ∃ n : Nat, 0 < n ∧ n < 2 ^ 63 ∧ floatKey bits = 2 ^ 63 - 1 - n ∧
        floatRank bits = -n) := by
  have hbits := UInt64.toNat_lt bits
  have hzero : bits = negativeZero ↔ bits.toNat = 2 ^ 63 := by
    rw [← UInt64.toNat_inj]
    rfl
  rw [ne_eq, hzero, floatKey, floatRank]
  rcases lt_trichotomy bits.toNat (2 ^ 63) with h | h | h
  · exact .inl ⟨h.ne, bits.toNat, by rw [if_pos h, add_comm], by rw [if_pos h]⟩
  · exact .inr (.inl ⟨h, by rw [if_neg h.not_lt, if_pos h], by rw [if_neg h.not_lt, h]; rfl⟩)
  · refine .inr (.inr ⟨h.ne', bits.toNat - 2 ^ 63, by omega, by omega, ?_, ?_⟩)
    · rw [if_neg h.not_gt, if_neg h.ne']
      omega
    · rw [if_neg h.not_gt]
      omega

/-- **Float keys agree with the numbers** — in order and in equality — except where one of the two
is the negative zero and the other one, of another key, is no greater. -/
theorem encode_float_agrees_iff {x y : UInt64} (hx : IsNumber x) (hy : IsNumber y) :
    ((encodeValueComparable rt (.float x) < encodeValueComparable rt (.float y) ↔
        floatRank x < floatRank y) ∧
      (encodeValueComparable rt (.float x) = encodeValueComparable rt (.float y) ↔
        floatRank x = floatRank y)) ↔
      ¬ (x = negativeZero ∧ y ≠ negativeZero ∧ floatRank y ≤ 0) ∧
        ¬ (y = negativeZero ∧ x ≠ negativeZero ∧ floatRank x ≤ 0) := by
  rw [encode_float rt hx, encode_float rt hy, List.cons_lt_cons_iff, List.cons.injEq,
    beBytes_lt_iff (floatKey_lt_width x) (floatKey_lt_width y),
    beBytes_inj (floatKey_lt_width x) (floatKey_lt_width y)]
  simp only [lt_self_iff_false, false_or, true_and]
  rcases floatKey_cases x with ⟨hxz, n, hxk, hxr⟩ | ⟨hxz, hxk, hxr⟩ | ⟨hxz, n, hn, hn', hxk, hxr⟩ <;>
  rcases floatKey_cases y with ⟨hyz, m, hyk, hyr⟩ | ⟨hyz, hyk, hyr⟩ | ⟨hyz, m, hm, hm', hyk, hyr⟩ <;>
  · rw [hxk, hyk, hxr, hyr]
    simp only [hxz, hyz, ne_eq, not_true_eq_false, not_false_eq_true, false_and, true_and, and_true,
      iff_true]
    omega

/-- The two zeros are one number under two keys. -/
theorem encode_float_negativeZero :
    IsNumber negativeZero ∧ IsNumber 0 ∧ floatRank negativeZero = floatRank 0 ∧
      encodeValueComparable sampleRuntime (.float negativeZero) ≠
        encodeValueComparable sampleRuntime (.float 0) := by
  refine ⟨by unfold IsNumber; decide, by unfold IsNumber; decide, by decide, ?_⟩
  simp only [encodeValueComparable]
  decide

/-- The bits of `1.0`, above both zeros, are above them in key order. -/
theorem encode_float_one :
    ((encodeValueComparable sampleRuntime (.float negativeZero) <
        encodeValueComparable sampleRuntime (.float 0x3FF0000000000000) ↔
        floatRank negativeZero < floatRank 0x3FF0000000000000) ∧
      (encodeValueComparable sampleRuntime (.float negativeZero) =
        encodeValueComparable sampleRuntime (.float 0x3FF0000000000000) ↔
        floatRank negativeZero = floatRank 0x3FF0000000000000)) :=
  (encode_float_agrees_iff sampleRuntime (by unfold IsNumber; decide)
    (by unfold IsNumber; decide)).mpr (by decide)

end Synaptica.Storage
