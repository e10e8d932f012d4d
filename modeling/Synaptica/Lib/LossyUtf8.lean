import Synaptica.Lib.Chunks

/-!
# Lossy decoding of UTF-8

`lossy` decodes a byte string into characters and replaces every maximal part of it that begins no
character by U+FFFD. Decoding a text as a whole gives the text back (`lossy_encode`). Decoding it
piece by piece does so **exactly when no piece begins inside a character** (`flatMap_lossy_iff`): a
character cut in two is replaced by at least two others, so the result is too long.

The counting rests on first bytes: a character of an encoded text has exactly one
(`countP_encode`), and a decoding step passes over at most one (`countP_le_length_lossy`).
-/

namespace LossyUtf8

/-! ## Encoding -/

/-- The bytes of a text. -/
def encode (cs : List Char) : List UInt8 := cs.flatMap String.utf8EncodeChar

@[simp] theorem encode_nil : encode [] = [] := rfl

@[simp] theorem encode_cons (c : Char) (cs : List Char) :
    encode (c :: cs) = String.utf8EncodeChar c ++ encode cs := rfl

theorem encode_append (cs ds : List Char) : encode (cs ++ ds) = encode cs ++ encode ds :=
  List.flatMap_append

/-- Whether a byte can be the first one of a character. -/
def isFirst (b : UInt8) : Bool := decide b.IsUTF8FirstByte

/-- A character is one first byte and then others. -/
theorem exists_utf8EncodeChar (c : Char) :
    ∃ b tail, String.utf8EncodeChar c = b :: tail ∧ isFirst b ∧ (∀ t ∈ tail, isFirst t = false) ∧
      tail.length = c.utf8Size - 1 := by
  cases h : String.utf8EncodeChar c with
  | nil => exact absurd h String.utf8EncodeChar_ne_nil
  | cons b tail =>
    have hfirst : ∀ (i : Nat) (hi : i < (b :: tail).length),
        (b :: tail)[i].IsUTF8FirstByte ↔ i = 0 := by
      rw [← h]
      intro i hi
      exact UInt8.isUTF8FirstByte_getElem_utf8EncodeChar
    refine ⟨b, tail, rfl, ?_, ?_, ?_⟩
    · exact decide_eq_true ((hfirst 0 (Nat.succ_pos _)).mpr rfl)
    · intro t ht
      obtain ⟨i, hi, rfl⟩ := List.getElem_of_mem ht
      apply decide_eq_false
      intro hbyte
      exact Nat.succ_ne_zero i ((hfirst (i + 1) (Nat.succ_lt_succ hi)).mp hbyte)
    · rw [← String.length_utf8EncodeChar, h]
      simp

/-- A text has as many first bytes as characters. -/
theorem countP_encode (cs : List Char) : (encode cs).countP isFirst = cs.length := by
  induction cs with
  | nil => rfl
  | cons c cs ih =>
    obtain ⟨b, tail, hc, hb, htail, -⟩ := exists_utf8EncodeChar c
    have hnone : tail.countP isFirst = 0 := by
      rw [List.countP_eq_zero]
      intro t ht
      simp [htail t ht]
    rw [encode_cons, List.countP_append, hc, List.countP_cons_of_pos hb, hnone, ih, List.length_cons]
    omega

/-- A text cut in front of a first byte, or at its end, is two texts. -/
theorem exists_of_encode_eq_append {cs : List Char} {x y : List UInt8} (h : encode cs = x ++ y)
    (hy : ∀ b, y.head? = some b → isFirst b) :
    ∃ as bs, cs = as ++ bs ∧ encode as = x ∧ encode bs = y := by
  induction cs generalizing x with
  | nil =>
    obtain ⟨rfl, rfl⟩ := List.append_eq_nil_iff.mp h.symm
    exact ⟨[], [], rfl, rfl, rfl⟩
  | cons c cs ih =>
    obtain ⟨b, tail, hc, hb, htail, -⟩ := exists_utf8EncodeChar c
    cases x with
    | nil => exact ⟨[], c :: cs, rfl, rfl, by simpa using h⟩
    | cons b' x =>
      rw [encode_cons, hc, List.cons_append, List.cons_append] at h
      obtain ⟨rfl, hrest⟩ := List.cons.inj h
      rcases List.append_eq_append_iff.mp hrest with ⟨z, rfl, hz⟩ | ⟨z, rfl, hz⟩
      · obtain ⟨as, bs, rfl, rfl, rfl⟩ := ih hz
        exact ⟨c :: as, bs, rfl, by simp [hc], rfl⟩
      · -- The cut is inside the character `c`, or right behind it.
        cases z with
        | nil => exact ⟨[c], cs, rfl, by simp [hc], by simpa using hz.symm⟩
        | cons t z =>
          have hfirst := hy t (by rw [hz]; rfl)
          rw [htail t (by simp)] at hfirst
          cases hfirst

/-! ## Decoding -/

/-- The character that the bytes begin with. -/
def decode? (bytes : List UInt8) : Option Char := bytes.toByteArray.utf8DecodeChar? 0

theorem decode?_append (c : Char) (rest : List UInt8) :
    decode? (String.utf8EncodeChar c ++ rest) = some c := by
  rw [decode?, List.toByteArray_append]
  exact ByteArray.utf8DecodeChar?_utf8EncodeChar_append

theorem exists_of_decode? {bytes : List UInt8} {c : Char} (h : decode? bytes = some c) :
    ∃ rest, bytes = String.utf8EncodeChar c ++ rest := by
  obtain ⟨rest, hrest⟩ := ByteArray.exists_of_utf8DecodeChar?_eq_some h
  refine ⟨rest.data.toList, ?_⟩
  have hlist := congrArg (fun b : ByteArray => b.data.toList) hrest
  simpa using hlist

/-- Whether the second byte of a sequence of three or four bytes can follow the first one. -/
def accepts (b0 b1 : UInt8) : Bool :=
  (b0 == 0xE0 && 0xA0 ≤ b1 && b1 ≤ 0xBF) || (0xE1 ≤ b0 && b0 ≤ 0xEC && 0x80 ≤ b1 && b1 ≤ 0xBF) ||
  (b0 == 0xED && 0x80 ≤ b1 && b1 ≤ 0x9F) || (0xEE ≤ b0 && b0 ≤ 0xEF && 0x80 ≤ b1 && b1 ≤ 0xBF) ||
  (b0 == 0xF0 && 0x90 ≤ b1 && b1 ≤ 0xBF) || (0xF1 ≤ b0 && b0 ≤ 0xF3 && 0x80 ≤ b1 && b1 ≤ 0xBF) ||
  (b0 == 0xF4 && 0x80 ≤ b1 && b1 ≤ 0x8F)

/-- How many bytes behind the first one belong to the part that is replaced as a whole: those that
could still have become a character. -/
def invalidTail (b0 : UInt8) (rest : List UInt8) : Nat :=
  match rest with
  | b1 :: rest =>
    if accepts b0 b1 then
      match rest with
      | b2 :: _ => if 0xF0 ≤ b0 && 0x80 ≤ b2 && b2 ≤ 0xBF then 2 else 1
      | [] => 1
    else 0
  | [] => 0

/-- Decode, with U+FFFD in place of every part that begins no character. -/
def lossy : List UInt8 → List Char
  | [] => []
  | b :: rest =>
    match decode? (b :: rest) with
    | some c => c :: lossy (rest.drop (c.utf8Size - 1))
    | none => '\uFFFD' :: lossy (rest.drop (invalidTail b rest))
termination_by bytes => bytes.length
decreasing_by
  all_goals
    simp only [List.length_drop, List.length_cons]
    omega

/-! ## A whole text -/

/-- A byte that is no first byte begins no character. -/
theorem decode?_of_not_isFirst {b : UInt8} (hb : isFirst b = false) (rest : List UInt8) :
    decode? (b :: rest) = none := by
  cases h : decode? (b :: rest) with
  | none => rfl
  | some c =>
    obtain ⟨rest', hrest⟩ := exists_of_decode? h
    obtain ⟨b', tail, hc, hfirst, -, -⟩ := exists_utf8EncodeChar c
    rw [hc, List.cons_append] at hrest
    obtain ⟨rfl, -⟩ := List.cons.inj hrest
    rw [hb] at hfirst
    cases hfirst

/-- A character in front is decoded as itself. -/
theorem lossy_append (c : Char) (rest : List UInt8) :
    lossy (String.utf8EncodeChar c ++ rest) = c :: lossy rest := by
  have hdecode := decode?_append c rest
  obtain ⟨b, tail, hc, -, -, hlen⟩ := exists_utf8EncodeChar c
  rw [hc, List.cons_append] at hdecode ⊢
  rw [lossy, hdecode]
  simp [← hlen]

/-- Decoding a whole text gives the text back. -/
@[simp] theorem lossy_encode (cs : List Char) : lossy (encode cs) = cs := by
  induction cs with
  | nil => rw [encode_nil, lossy]
  | cons c cs ih => rw [encode_cons, lossy_append, ih]

/-! ## Counting first bytes -/

/-- The bytes from 0x80 to 0xBF are those that only continue a character. -/
theorem isFirst_of_range {b : UInt8} (hlo : 0x80 ≤ b) (hhi : b ≤ 0xBF) : isFirst b = false := by
  have hall : ∀ v : BitVec 8, 0x80#8 ≤ v → v ≤ 0xBF#8 → isFirst ⟨v⟩ = false := by decide
  exact hall b.toBitVec hlo hhi

theorem isFirst_of_accepts {b0 b1 : UInt8} (h : accepts b0 b1) : isFirst b1 = false := by
  simp only [accepts, Bool.or_eq_true, Bool.and_eq_true, decide_eq_true_eq,
    UInt8.le_iff_toNat_le] at h
  apply isFirst_of_range
  · rw [UInt8.le_iff_toNat_le]
    have : (0xA0 : UInt8).toNat = 160 := rfl
    grind
  · rw [UInt8.le_iff_toNat_le]
    grind

/-- The bytes that are replaced together with the one in front of them are no first bytes. -/
theorem countP_drop_invalidTail (b : UInt8) (rest : List UInt8) :
    (rest.drop (invalidTail b rest)).countP isFirst = rest.countP isFirst := by
  unfold invalidTail
  cases rest with
  | nil => rfl
  | cons b1 rest =>
    by_cases haccepts : accepts b b1
    · have hb1 := isFirst_of_accepts haccepts
      cases rest with
      | nil => simp [haccepts, hb1]
      | cons b2 rest =>
        by_cases hb2 : 0xF0 ≤ b ∧ 0x80 ≤ b2 ∧ b2 ≤ 0xBF
        · have hb2' := isFirst_of_range hb2.2.1 hb2.2.2
          simp [haccepts, hb2, hb1, hb2']
        · have hnot : ¬ ((decide (0xF0 ≤ b) && decide (0x80 ≤ b2) && decide (b2 ≤ 0xBF)) = true) := by
            simpa [and_assoc] using hb2
          simp only [haccepts, if_true, if_neg hnot]
          simp [hb1]
    · simp [haccepts]

/-- A decoding step passes over at most one first byte, and a step over another byte over none. -/
theorem countP_le_length_lossy (bytes : List UInt8) :
    bytes.countP isFirst ≤ (lossy bytes).length ∧
      (∀ b, bytes.head? = some b → isFirst b = false →
        bytes.countP isFirst < (lossy bytes).length) := by
  induction bytes using lossy.induct with
  | case1 => simp
  | case2 b rest c hdecode ih =>
    obtain ⟨rest', hrest⟩ := exists_of_decode? hdecode
    obtain ⟨b', tail, hc, hfirst, htail, hlen⟩ := exists_utf8EncodeChar c
    rw [hc, List.cons_append] at hrest
    obtain ⟨rfl, rfl⟩ := List.cons.inj hrest
    have hnone : tail.countP isFirst = 0 := by
      rw [List.countP_eq_zero]
      intro t ht
      simp [htail t ht]
    have hdrop : (tail ++ rest').drop (c.utf8Size - 1) = rest' := by
      rw [← hlen, List.drop_left]
    rw [hdrop] at ih
    have hstep := lossy_append c rest'
    rw [hc, List.cons_append] at hstep
    rw [hstep, List.countP_cons_of_pos hfirst, List.countP_append, hnone, List.length_cons]
    refine ⟨by omega, ?_⟩
    intro b'' hb'' hnot
    obtain rfl : b = b'' := by simpa using hb''
    rw [hnot] at hfirst
    cases hfirst
  | case3 b rest hdecode ih =>
    have hstep : lossy (b :: rest) = '\uFFFD' :: lossy (rest.drop (invalidTail b rest)) := by
      rw [lossy, hdecode]
    rw [countP_drop_invalidTail] at ih
    rw [hstep, List.length_cons]
    refine ⟨?_, ?_⟩
    · have hcons : (b :: rest).countP isFirst ≤ rest.countP isFirst + 1 := by
        rw [List.countP_cons]
        split <;> omega
      omega
    · intro b' hb' hnot
      obtain rfl : b = b' := by simpa using hb'
      rw [List.countP_cons_of_neg (by simp [hnot])]
      omega

/-! ## A text in pieces -/

/-- Every piece begins with a first byte, or is empty. -/
def CutsBetween (pieces : List (List UInt8)) : Prop :=
  ∀ piece ∈ pieces, ∀ b, piece.head? = some b → isFirst b

theorem countP_flatten_le (pieces : List (List UInt8)) :
    pieces.flatten.countP isFirst ≤ (pieces.flatMap lossy).length := by
  induction pieces with
  | nil => simp
  | cons piece pieces ih =>
    have hpiece := (countP_le_length_lossy piece).1
    rw [List.flatten_cons, List.countP_append, List.flatMap_cons, List.length_append]
    omega

/-- Where nothing was added, no piece began inside a character. -/
theorem cutsBetween_of_length {pieces : List (List UInt8)}
    (h : (pieces.flatMap lossy).length = pieces.flatten.countP isFirst) : CutsBetween pieces := by
  induction pieces with
  | nil => simp [CutsBetween]
  | cons piece pieces ih =>
    obtain ⟨hpiece, hinside⟩ := countP_le_length_lossy piece
    have hrest := countP_flatten_le pieces
    rw [List.flatten_cons, List.countP_append, List.flatMap_cons, List.length_append] at h
    intro p hp b hb
    rcases List.mem_cons.mp hp with rfl | hmem
    · by_contra hnot
      have hlt := hinside b hb (by simpa using hnot)
      omega
    · exact ih (by omega) p hmem b hb

/-- The first byte of what follows is the first byte of a piece. -/
theorem CutsBetween.head?_flatten {pieces : List (List UInt8)} (h : CutsBetween pieces) {b : UInt8}
    (hb : pieces.flatten.head? = some b) : isFirst b := by
  induction pieces with
  | nil => cases hb
  | cons piece pieces ih =>
    cases piece with
    | nil => exact ih (fun p hp => h p (List.mem_cons_of_mem _ hp)) hb
    | cons b' piece => exact h (b' :: piece) List.mem_cons_self b hb

/-- Pieces that begin between characters are decoded as parts of the text. -/
theorem CutsBetween.flatMap_lossy {pieces : List (List UInt8)} (h : CutsBetween pieces)
    {cs : List Char} (hcs : pieces.flatten = encode cs) : pieces.flatMap lossy = cs := by
  induction pieces generalizing cs with
  | nil =>
    have hlen := congrArg (List.countP isFirst) hcs
    rw [countP_encode] at hlen
    exact (List.length_eq_zero_iff.mp hlen.symm).symm
  | cons piece pieces ih =>
    have htail : CutsBetween pieces := fun p hp => h p (List.mem_cons_of_mem _ hp)
    rw [List.flatten_cons] at hcs
    obtain ⟨as, bs, rfl, rfl, hbs⟩ :=
      exists_of_encode_eq_append hcs.symm fun b hb => htail.head?_flatten hb
    rw [List.flatMap_cons, lossy_encode, ih htail hbs.symm]

/-- **Decoding piece by piece is lossless exactly when no piece begins inside a character.** -/
theorem flatMap_lossy_iff {pieces : List (List UInt8)} {cs : List Char}
    (hcs : pieces.flatten = encode cs) : pieces.flatMap lossy = cs ↔ CutsBetween pieces := by
  constructor
  · intro h
    apply cutsBetween_of_length
    rw [h, hcs, countP_encode]
  · intro h
    exact h.flatMap_lossy hcs

/-- The pieces of one size begin between characters when the bytes at the multiples of the size are
first bytes. -/
theorem cutsBetween_chunks_iff {size : Nat} (hsize : 0 < size) (bytes : List UInt8) :
    CutsBetween (Chunks.chunks size bytes) ↔
      ∀ i b, bytes[i * size]? = some b → isFirst b := by
  constructor
  · intro h i b hb
    rw [← Chunks.head?_getElem?_chunks hsize] at hb
    obtain ⟨piece, hpiece, hhead⟩ := Option.bind_eq_some_iff.mp hb
    exact h piece (List.mem_of_getElem? hpiece) b hhead
  · intro h piece hpiece b hb
    obtain ⟨i, hi⟩ := List.getElem?_of_mem hpiece
    apply h i b
    rw [← Chunks.head?_getElem?_chunks hsize, hi]
    exact hb

end LossyUtf8
