import Synaptica.Core.Graph

/-!
# Reading identifiers back

Identifiers travel through query results as text. `parseHyphenated` reads the form that `toString`
writes, 32 hexadecimal digits with hyphens between them.
-/

namespace Synaptica.Uuid

/-- The value of a hexadecimal digit of either case. -/
def hexValue (c : Char) : Option Nat :=
  if c.isDigit then some (c.toNat - '0'.toNat)
  else if 'a' ≤ c ∧ c ≤ 'f' then some (c.toNat - 'a'.toNat + 10)
  else if 'A' ≤ c ∧ c ≤ 'F' then some (c.toNat - 'A'.toNat + 10)
  else none

/-- Two digits a byte. -/
def hexDecode : List Char → Option Bytes
  | [] => some []
  | [_] => none
  | hi :: lo :: cs => do
    let h ← hexValue hi
    let l ← hexValue lo
    let rest ← hexDecode cs
    pure (UInt8.ofNat (16 * h + l) :: rest)

/-- The digits without the hyphens, as sixteen bytes. -/
def parseHyphenated (s : String) : Except String Uuid :=
  match (hexDecode (s.toList.filter (· != '-'))).bind fromSlice with
  | some u => .ok u
  | none => .error "invalid UUID"

theorem hexDecode_hexEncode (bytes : Bytes) : hexDecode (hexEncode bytes) = some bytes := by
  induction bytes with
  | nil => rfl
  | cons b bytes ih =>
    have hbyte : ∀ b : UInt8,
        hexValue (Nat.digitChar (b.toNat / 16)) = some (b.toNat / 16) ∧
        hexValue (Nat.digitChar (b.toNat % 16)) = some (b.toNat % 16) ∧
        UInt8.ofNat (16 * (b.toNat / 16) + b.toNat % 16) = b := by
      decide +kernel
    obtain ⟨hhi, hlo, hval⟩ := hbyte b
    have hcons : hexEncode (b :: bytes) =
        Nat.digitChar (b.toNat / 16) :: Nat.digitChar (b.toNat % 16) :: hexEncode bytes := rfl
    rw [hcons, hexDecode, hhi, hlo, ih]
    show some (UInt8.ofNat (16 * (b.toNat / 16) + b.toNat % 16) :: bytes) = _
    rw [hval]

theorem filter_hexEncode (bytes : Bytes) :
    (hexEncode bytes).filter (· != '-') = hexEncode bytes := by
  apply List.filter_eq_self.mpr
  intro c hc
  obtain ⟨b, -, hb⟩ := List.mem_flatMap.mp hc
  have hdigits : ∀ b : UInt8, Nat.digitChar (b.toNat / 16) != '-' ∧
      Nat.digitChar (b.toNat % 16) != '-' := by
    decide +kernel
  rcases List.mem_pair.mp hb with rfl | rfl
  · exact (hdigits b).1
  · exact (hdigits b).2

/-- An identifier reads back from its text. -/
theorem parseHyphenated_toString (u : Uuid) : parseHyphenated u.toString = .ok u := by
  have hsplit : u.bytes = u.bytes.take 4 ++ ((u.bytes.drop 4).take 2 ++ ((u.bytes.drop 6).take 2 ++
      ((u.bytes.drop 8).take 2 ++ (u.bytes.drop 10).take 6))) := by
    obtain ⟨bytes, hlen⟩ := u
    match bytes, hlen with
    | [b0, b1, b2, b3, b4, b5, b6, b7, b8, b9, b10, b11, b12, b13, b14, b15], _ => rfl
  have happend : ∀ a b : Bytes, hexEncode a ++ hexEncode b = hexEncode (a ++ b) := by
    intro a b
    simp [hexEncode]
  have hdigits : u.toString.toList.filter (· != '-') = hexEncode u.bytes := by
    rw [Uuid.toString, String.toList_ofList]
    simp only [List.filter_append, List.filter_cons, filter_hexEncode, List.drop_zero,
      bne_self_eq_false, Bool.false_eq_true, if_false]
    simp only [happend, List.append_assoc]
    rw [← hsplit]
  rw [parseHyphenated, hdigits, hexDecode_hexEncode]
  simp

/-- Different identifiers have different texts. -/
theorem toString_injective : Function.Injective Uuid.toString := by
  intro a b h
  have ha := parseHyphenated_toString a
  rw [h, parseHyphenated_toString b] at ha
  exact (Except.ok.inj ha).symm

end Synaptica.Uuid
