import Synaptica.Core.Graph

/-!
# Text files

`read_to_string` decodes a file as UTF-8 and fails on bytes that are none; `str::lines` cuts the
text at its line feeds. A line ends with a line feed, which a carriage return may precede; the last
line may lack it.

* `exists_of_utf8_append` — what follows a text in a text is a text.
* `lines_append_newline`, `lines_of_no_newline` — the lines of a text, from its front.
-/

namespace Synaptica

/-! ## UTF-8 -/

/-- `std::fs::read_to_string`, on the contents of the file. -/
def readToString (contents : Bytes) : Option String := String.fromUTF8? ⟨contents.toArray⟩

@[simp] theorem readToString_utf8 (s : String) : readToString (utf8 s) = some s := by
  have h : (⟨(utf8 s).toArray⟩ : ByteArray) = s.toByteArray := by simp [utf8]
  unfold readToString String.fromUTF8?
  rw [h, dif_pos s.isValidUTF8]
  rfl

theorem utf8_of_readToString {contents : Bytes} {s : String}
    (h : readToString contents = some s) : utf8 s = contents := by
  unfold readToString String.fromUTF8? at h
  split at h
  next hvalid =>
    cases h
    simp [utf8, String.fromUTF8]
  next => cases h

@[simp] theorem utf8_append (s t : String) : utf8 (s ++ t) = utf8 s ++ utf8 t := by
  simp [utf8]

@[simp] theorem utf8_eq_nil {s : String} : utf8 s = [] ↔ s = "" := by
  constructor
  · intro h
    apply utf8_injective
    rw [h]
    rfl
  · rintro rfl
    rfl

/-- A text that begins with the bytes of another begins with its characters. -/
theorem exists_append_of_utf8_eq {s t : String} {b : Bytes} (h : utf8 s ++ b = utf8 t) :
    ∃ r, t = s ++ r ∧ utf8 r = b := by
  have hbytes : s.toList.utf8Encode ++ ⟨b.toArray⟩ = t.toList.utf8Encode := by
    rw [String.utf8Encode_toList, String.utf8Encode_toList]
    apply ByteArray.ext
    apply Array.toList_inj.mp
    simpa [utf8] using h
  obtain ⟨r, hr⟩ := List.isPrefix_of_utf8Encode_append_eq_utf8Encode _ hbytes
  have ht : t = s ++ String.ofList r := by
    rw [← String.toList_inj]
    simp [hr]
  refine ⟨String.ofList r, ht, ?_⟩
  rw [ht, utf8_append] at h
  exact (List.append_cancel_left h).symm

/-- Every byte of a character is below the highest one. -/
theorem toNat_lt_of_mem_utf8EncodeChar {c : Char} {b : UInt8} (h : b ∈ String.utf8EncodeChar c) :
    b.toNat < 0xFF := by
  have hofNat : ∀ n < 0xFF, (UInt8.ofNat n).toNat < 0xFF := by
    intro n hn
    rw [UInt8.toNat_ofNat']
    omega
  unfold String.utf8EncodeChar at h
  dsimp only at h
  split at h
  · rw [List.mem_singleton.mp h]
    exact hofNat _ (by omega)
  split at h
  · rcases List.mem_pair.mp h with rfl | rfl <;> exact hofNat _ (by omega)
  split at h <;> simp only [List.mem_cons, List.not_mem_nil, or_false] at h
  · rcases h with rfl | rfl | rfl <;> exact hofNat _ (by omega)
  · rcases h with rfl | rfl | rfl | rfl <;> exact hofNat _ (by omega)

/-- The bytes of a text, character by character. -/
theorem utf8_eq_flatMap (s : String) : utf8 s = s.toList.flatMap String.utf8EncodeChar := by
  rw [utf8, ← String.utf8Encode_toList, List.utf8Encode, List.data_toByteArray]

/-- No text contains the byte `0xFF`. -/
theorem notMem_utf8 (s : String) : 0xFF ∉ utf8 s := by
  rw [utf8_eq_flatMap, List.mem_flatMap]
  rintro ⟨c, -, hc⟩
  exact absurd (toNat_lt_of_mem_utf8EncodeChar hc) (by decide)

/-- NUL is the one character with a zero byte. -/
theorem eq_nul_of_zero_mem {c : Char} (h : 0 ∈ String.utf8EncodeChar c) : c = '\x00' := by
  have hofNat : ∀ n, 0 = UInt8.ofNat n → n % 256 = 0 := by
    intro n hn
    have htoNat := congrArg UInt8.toNat hn
    rw [UInt8.toNat_ofNat'] at htoNat
    exact htoNat.symm
  unfold String.utf8EncodeChar at h
  dsimp only at h
  split at h
  · next hle =>
    have hzero := hofNat _ (List.mem_singleton.mp h)
    apply Char.ext
    apply UInt32.toNat_inj.mp
    show c.val.toNat = 0
    omega
  -- Every byte of a longer sequence has its highest bit set.
  split at h
  · rcases List.mem_pair.mp h with hb | hb <;> have := hofNat _ hb <;> omega
  split at h <;> simp only [List.mem_cons, List.not_mem_nil, or_false] at h
  · rcases h with hb | hb | hb <;> have := hofNat _ hb <;> omega
  · rcases h with hb | hb | hb | hb <;> have := hofNat _ hb <;> omega

/-- A text without NUL has no zero byte. -/
theorem zero_notMem_utf8 {s : String} (h : '\x00' ∉ s.toList) : 0 ∉ utf8 s := by
  rw [utf8_eq_flatMap, List.mem_flatMap]
  rintro ⟨c, hc, hzero⟩
  rw [eq_nul_of_zero_mem hzero] at hc
  exact h hc

/-- Texts that are each closed by that byte can be told apart. -/
theorem flatMap_closed_injective :
    Function.Injective fun texts : List String => texts.flatMap fun s => utf8 s ++ [0xFF] := by
  have htext : ∀ (s : String) (rest : Bytes),
      (utf8 s ++ 0xFF :: rest).takeWhile (· ≠ 0xFF) = utf8 s := by
    intro s rest
    rw [List.takeWhile_append_of_pos]
    · simp
    · intro b hb
      simp only [ne_eq, decide_eq_true_eq]
      rintro rfl
      exact notMem_utf8 s hb
  intro ss
  induction ss with
  | nil =>
    intro ts h
    cases ts with
    | nil => rfl
    | cons t ts => simp at h
  | cons s ss ih =>
    intro ts h
    cases ts with
    | nil => simp at h
    | cons t ts =>
      simp only [List.flatMap_cons, List.append_assoc, List.singleton_append] at h
      have hst : utf8 s = utf8 t := by rw [← htext s, h, htext]
      rw [hst, List.append_cancel_left_eq, List.cons.injEq] at h
      rw [utf8_injective hst, ih h.2]

/-! ## Lines -/

/-- `str::split_inclusive('\n')`. -/
def splitInclusive : List Char → List (List Char)
  | [] => []
  | c :: cs =>
    if c = '\n' then [c] :: splitInclusive cs
    else
      match splitInclusive cs with
      | [] => [[c]]
      | line :: rest => (c :: line) :: rest

/-- `str::strip_suffix` with one character. -/
def stripSuffix (c : Char) (line : List Char) : Option (List Char) :=
  if line.getLast? = some c then some line.dropLast else none

/-- A line without its line end. -/
def stripLineEnd (line : List Char) : List Char :=
  match stripSuffix '\n' line with
  | none => line
  | some line => (stripSuffix '\r' line).getD line

/-- `str::lines`. -/
def lines (s : String) : List String :=
  (splitInclusive s.toList).map (String.ofList ∘ stripLineEnd)

theorem splitInclusive_append_newline {line : List Char} (h : '\n' ∉ line) (rest : List Char) :
    splitInclusive (line ++ '\n' :: rest) = (line ++ ['\n']) :: splitInclusive rest := by
  induction line with
  | nil => simp [splitInclusive]
  | cons c line ih =>
    have hc : c ≠ '\n' := fun heq => h (heq ▸ List.mem_cons_self)
    have hrest : '\n' ∉ line := fun hmem => h (List.mem_cons_of_mem _ hmem)
    simp [splitInclusive, hc, ih hrest]

theorem splitInclusive_of_no_newline {line : List Char} (h : '\n' ∉ line) (hne : line ≠ []) :
    splitInclusive line = [line] := by
  induction line with
  | nil => exact absurd rfl hne
  | cons c line ih =>
    have hc : c ≠ '\n' := fun heq => h (heq ▸ List.mem_cons_self)
    have hrest : '\n' ∉ line := fun hmem => h (List.mem_cons_of_mem _ hmem)
    by_cases hline : line = []
    · subst hline
      simp [splitInclusive, hc]
    · simp [splitInclusive, hc, ih hrest hline]

theorem stripLineEnd_newline {line : List Char} (h : '\r' ∉ line) :
    stripLineEnd (line ++ ['\n']) = line := by
  have hlast : line.getLast? ≠ some '\r' := fun heq => h (List.mem_of_getLast? heq)
  simp [stripLineEnd, stripSuffix, hlast]

theorem stripLineEnd_of_no_newline {line : List Char} (h : '\n' ∉ line) :
    stripLineEnd line = line := by
  have hlast : line.getLast? ≠ some '\n' := fun heq => h (List.mem_of_getLast? heq)
  simp [stripLineEnd, stripSuffix, hlast]

@[simp] theorem lines_empty : lines "" = [] := rfl

/-- The first line of a text. -/
theorem lines_append_newline {line : String} (hlf : '\n' ∉ line.toList) (hcr : '\r' ∉ line.toList)
    (rest : String) : lines (line ++ "\n" ++ rest) = line :: lines rest := by
  have hchars : (line ++ "\n" ++ rest).toList = line.toList ++ '\n' :: rest.toList := by simp
  simp [lines, hchars, splitInclusive_append_newline hlf, stripLineEnd_newline hcr]

/-- A text that does not end its only line. -/
theorem lines_of_no_newline {line : String} (h : '\n' ∉ line.toList) (hne : line ≠ "") :
    lines line = [line] := by
  have hchars : line.toList ≠ [] := by simpa using hne
  simp [lines, splitInclusive_of_no_newline h hchars, stripLineEnd_of_no_newline h]

end Synaptica
