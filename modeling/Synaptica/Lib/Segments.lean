import Mathlib

/-!
# Words closed by a letter

A reader that collects letters of one kind into a buffer, and empties it at every letter of another
kind, cuts its input into words with the letter that closes each, and the letters left in the buffer
at the end. `join_cut` says that this loses nothing, `cut_join` that a text made of closed words is
cut into exactly these.
-/

namespace Segments

variable {α : Type*} (p : α → Bool)

/-- The closed words of a text, and what is left behind the last of them. The buffer holds the
beginning of the first word. -/
def cut (buffer : List α) : List α → List (List α × α) × List α
  | [] => ([], buffer)
  | a :: as =>
    if p a then cut (buffer ++ [a]) as
    else ((buffer, a) :: (cut [] as).1, (cut [] as).2)

/-- The text of closed words. -/
def join (words : List (List α × α)) : List α := words.flatMap fun w => w.1 ++ [w.2]

@[simp] theorem join_nil : join ([] : List (List α × α)) = [] := rfl

@[simp] theorem join_cons (w : List α × α) (words : List (List α × α)) :
    join (w :: words) = w.1 ++ w.2 :: join words := by
  simp [join]

variable {p}

theorem cut_of_pos {buffer as : List α} {a : α} (ha : p a) :
    cut p buffer (a :: as) = cut p (buffer ++ [a]) as := by
  rw [cut, if_pos ha]

theorem cut_of_neg {buffer as : List α} {a : α} (ha : p a = false) :
    cut p buffer (a :: as) = ((buffer, a) :: (cut p [] as).1, (cut p [] as).2) := by
  rw [cut, if_neg (by simp [ha])]

/-- Nothing is lost. -/
theorem join_cut (buffer as : List α) :
    join (cut p buffer as).1 ++ (cut p buffer as).2 = buffer ++ as := by
  induction as generalizing buffer with
  | nil => simp [cut]
  | cons a as ih =>
    cases ha : p a with
    | true => rw [cut_of_pos ha, ih, List.append_assoc, List.singleton_append]
    | false => simp [cut_of_neg ha, ih]

/-- Words consist of the letters that are collected. -/
theorem all_of_mem_cut {buffer as : List α} (hbuffer : ∀ b ∈ buffer, p b) {w : List α × α}
    (hw : w ∈ (cut p buffer as).1) : ∀ b ∈ w.1, p b := by
  induction as generalizing buffer with
  | nil => cases hw
  | cons a as ih =>
    cases ha : p a with
    | true =>
      rw [cut_of_pos ha] at hw
      apply ih _ hw
      intro b hb
      rcases List.mem_append.mp hb with hold | hnew
      · exact hbuffer b hold
      · rwa [List.mem_singleton.mp hnew]
    | false =>
      rw [cut_of_neg ha] at hw
      rcases List.mem_cons.mp hw with rfl | htail
      · exact hbuffer
      · exact ih (fun b hb => absurd hb List.not_mem_nil) htail

/-- Collected letters go to the buffer. -/
theorem cut_append {buffer word : List α} (hword : ∀ b ∈ word, p b) (as : List α) :
    cut p buffer (word ++ as) = cut p (buffer ++ word) as := by
  induction word generalizing buffer with
  | nil => simp
  | cons b word ih =>
    rw [List.cons_append, cut_of_pos (hword b List.mem_cons_self),
      ih fun b' hb' => hword b' (List.mem_cons_of_mem _ hb'), List.append_assoc,
      List.singleton_append]

/-- A text of closed words is cut into these words. -/
theorem cut_join {words : List (List α × α)}
    (hwords : ∀ w ∈ words, (∀ b ∈ w.1, p b) ∧ p w.2 = false) : cut p [] (join words) = (words, []) := by
  induction words with
  | nil => rfl
  | cons w words ih =>
    obtain ⟨hword, hclose⟩ := hwords w List.mem_cons_self
    rw [join_cons, cut_append hword, List.nil_append, cut_of_neg hclose,
      ih fun w' hw' => hwords w' (List.mem_cons_of_mem _ hw')]

/-! ## Readers -/

section Reader

variable {σ ν ε : Type*} (read : σ → List α → List α → Except ε σ) (value : List α × α → Option ν)
  (add : σ → ν → σ) {q : α → Prop}

/-- A reader that turns each closed word into a value and adds it to a state accepts exactly the
texts whose words all have a value; what is left in its buffer does not matter. The letters of the
text satisfy `q`. -/
theorem read_eq_ok_iff (hnil : ∀ s buffer, read s buffer [] = .ok s)
    (hpos : ∀ s buffer a as, p a → read s buffer (a :: as) = read s (buffer ++ [a]) as)
    (hneg : ∀ s buffer a as r, (∀ b ∈ buffer, p b) → p a = false → q a →
      (read s buffer (a :: as) = .ok r ↔
        ∃ v, value (buffer, a) = some v ∧ read (add s v) [] as = .ok r))
    {s r : σ} {buffer as : List α} (hbuffer : ∀ b ∈ buffer, p b) (has : ∀ a ∈ as, q a) :
    read s buffer as = .ok r ↔
      ∃ values, List.Forall₂ (fun w v => value w = some v) (cut p buffer as).1 values ∧
        values.foldl add s = r := by
  induction as generalizing s buffer with
  | nil =>
    rw [hnil, cut]
    constructor
    · intro h
      exact ⟨[], .nil, Except.ok.inj h⟩
    · rintro ⟨values, hvalues, rfl⟩
      rw [List.forall₂_nil_left_iff.mp hvalues]
      rfl
  | cons a as ih =>
    have htail : ∀ a' ∈ as, q a' := fun a' ha' => has a' (List.mem_cons_of_mem _ ha')
    cases ha : p a with
    | true =>
      rw [hpos s buffer a as ha, cut_of_pos ha]
      apply ih _ htail
      intro b hb
      rcases List.mem_append.mp hb with hold | hnew
      · exact hbuffer b hold
      · rwa [List.mem_singleton.mp hnew]
    | false =>
      rw [hneg s buffer a as r hbuffer ha (has a List.mem_cons_self), cut_of_neg ha]
      constructor
      · rintro ⟨v, hv, hread⟩
        obtain ⟨values, hvalues, hsum⟩ := (ih (fun b hb => absurd hb List.not_mem_nil) htail).mp hread
        exact ⟨v :: values, .cons hv hvalues, hsum⟩
      · rintro ⟨values, hvalues, hsum⟩
        obtain ⟨v, values', hv, hvalues', rfl⟩ := List.forall₂_cons_left_iff.mp hvalues
        exact ⟨v, hv, (ih (fun b hb => absurd hb List.not_mem_nil) htail).mpr ⟨values', hvalues', hsum⟩⟩

end Reader

end Segments
