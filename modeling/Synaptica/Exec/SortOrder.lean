import Synaptica.Exec.Operators
import Synaptica.Core.FloatOrder

/-!
# The order of `ORDER BY`

`cmp_values` compares integers, floats, strings and booleans, and calls everything else equal. On which
sets of values is that a total preorder, as `slice::sort_by` expects of a comparator?
-/

namespace Synaptica.Exec

open Binary64

/-- The values that `cmp_values` tells apart belong to one kind. -/
inductive SortKind where
  | null
  | number
  | text
  | truth
  | other
  deriving DecidableEq

def sortKind : Value → SortKind
  | .null => .null
  | .integer _ | .float _ => .number
  | .string _ => .text
  | .bool _ => .truth
  | _ => .other

/-- A float that is not NaN, or a value of another type. -/
def NotNaN : Value → Prop
  | .float f => IsNumber f
  | _ => True

/-- Two numbers, two strings or two booleans that are not equal; an integer is compared with a float as
a float. -/
def Differ : Value → Value → Prop
  | .integer i, .integer j => i ≠ j
  | .float x, .float y => F64.eq x y = false
  | .integer i, .float y => F64.eq (F64.ofInt64 i) y = false
  | .float x, .integer j => F64.eq x (F64.ofInt64 j) = false
  | .string s, .string t => s ≠ t
  | .bool a, .bool b => a ≠ b
  | _, _ => False

/-- What makes the comparison consistent on a set of values. -/
structure Comparable (S : Set Value) : Prop where
  /-- No float is what two integers are rounded to. -/
  exact : ∀ i j f, .integer i ∈ S → .integer j ∈ S → .float f ∈ S →
    F64.eq (F64.ofInt64 i) f = true → F64.eq (F64.ofInt64 j) f = true → i = j
  /-- Where two kinds meet, neither has values that differ. -/
  unmixed : ∀ a ∈ S, ∀ b ∈ S, a ≠ .null → b ≠ .null → sortKind a ≠ sortKind b →
    ∀ c ∈ S, ∀ d ∈ S, ¬ Differ c d

/-! ## What one comparison says -/

/-- Where an integer or a float stands among the floats. -/
def numberRank : Value → Int
  | .integer i => rank (F64.ofInt64 i)
  | .float f => rank f
  | _ => 0

/-- How two values of one kind compare. -/
inductive Compared : Value → Value → Ordering → Prop
  | integers (i j : Int64) : Compared (.integer i) (.integer j) (compare i j)
  | numbers {a b : Value} (hka : sortKind a = .number) (hkb : sortKind b = .number)
      (hf : (∃ f, a = .float f) ∨ ∃ f, b = .float f) :
      Compared a b (compare (numberRank a) (numberRank b))
  | strings (s t : String) : Compared (.string s) (.string t) (compare s t)
  | bools (a b : Bool) : Compared (.bool a) (.bool b) (compare a b)
  | others {a b : Value} (hka : sortKind a = .other) (hkb : sortKind b = .other) : Compared a b .eq

theorem cmpValues_compared {a b : Value} (hna : a ≠ .null) (ha : NotNaN a) (hb : NotNaN b)
    (hk : sortKind a = sortKind b) : Compared a b (cmpValues a b) := by
  have hnum := F64.isNumber_ofInt64
  cases a with
  | null => exact absurd rfl hna
  | bool x =>
    cases b with
    | bool y => exact .bools x y
    | _ => cases hk
  | integer i =>
    cases b with
    | integer j => exact .integers i j
    | float g =>
      rw [cmpValues, F64.partialCmp_eq (hnum i) hb]
      exact .numbers rfl rfl (.inr ⟨g, rfl⟩)
    | _ => cases hk
  | float f =>
    cases b with
    | integer j =>
      rw [cmpValues, F64.partialCmp_eq ha (hnum j)]
      exact .numbers rfl rfl (.inl ⟨f, rfl⟩)
    | float g =>
      rw [cmpValues, F64.partialCmp_eq ha hb]
      exact .numbers rfl rfl (.inl ⟨f, rfl⟩)
    | _ => cases hk
  | string s =>
    cases b with
    | string t => exact .strings s t
    | _ => cases hk
  | _ => cases b <;> first | exact .others rfl rfl | cases hk

theorem cmpValues_null_left {v : Value} (h : v ≠ .null) : cmpValues .null v = .lt := by
  cases v <;> first | rfl | exact absurd rfl h

theorem cmpValues_null_right {v : Value} (h : v ≠ .null) : cmpValues v .null = .gt := by
  cases v <;> first | rfl | exact absurd rfl h

theorem cmpValues_of_kind_ne {a b : Value} (ha : a ≠ .null) (hb : b ≠ .null)
    (h : sortKind a ≠ sortKind b) : cmpValues a b = .eq := by
  cases a <;> cases b <;> first | rfl | exact absurd rfl h | exact absurd rfl ha | exact absurd rfl hb

theorem Compared.unique {a b : Value} {o o' : Ordering} (h : Compared a b o) (h' : Compared a b o') :
    o = o' := by
  cases h <;> cases h' <;> first | rfl | simp_all [sortKind]

theorem Compared.swap {a b : Value} {o : Ordering} (h : Compared a b o) : Compared b a o.swap := by
  cases h with
  | integers i j => exact Std.OrientedOrd.eq_swap (a := j) ▸ .integers j i
  | numbers hka hkb hf => exact Std.OrientedOrd.eq_swap (a := numberRank b) ▸ .numbers hkb hka hf.symm
  | strings s t => exact Std.OrientedOrd.eq_swap (a := t) ▸ .strings t s
  | bools x y => exact Std.OrientedOrd.eq_swap (a := y) ▸ .bools y x
  | others hka hkb => exact .others hkb hka

theorem cmpValues_swap {a b : Value} (ha : NotNaN a) (hb : NotNaN b) :
    cmpValues a b = (cmpValues b a).swap := by
  by_cases hna : a = .null
  · subst hna
    by_cases hnb : b = .null
    · subst hnb
      rfl
    · rw [cmpValues_null_left hnb, cmpValues_null_right hnb]
      rfl
  by_cases hnb : b = .null
  · subst hnb
    rw [cmpValues_null_left hna, cmpValues_null_right hna]
    rfl
  by_cases hk : sortKind a = sortKind b
  · exact (cmpValues_compared hna ha hb hk).unique (cmpValues_compared hnb hb ha hk.symm).swap
  · rw [cmpValues_of_kind_ne hna hnb hk, cmpValues_of_kind_ne hnb hna (Ne.symm hk)]
    rfl

/-- What compares as no greater stands no higher. -/
theorem numberRank_le {a b : Value} {o : Ordering} (h : Compared a b o) (hk : sortKind a = .number)
    (ho : o.isLE) : numberRank a ≤ numberRank b := by
  cases h with
  | integers i j => exact F64.rank_ofInt64_mono (Std.isLE_compare.mp ho)
  | numbers => exact Std.isLE_compare.mp ho
  | strings => cases hk
  | bools => cases hk
  | others hka => exact absurd (hk.symm.trans hka) (by decide)

/-- Values that do not differ compare as equal. -/
theorem Compared.eq_iff {a b : Value} {o : Ordering} (h : Compared a b o) (ha : NotNaN a)
    (hb : NotNaN b) : o = .eq ↔ ¬ Differ a b := by
  have hnum := F64.isNumber_ofInt64
  cases h with
  | integers i j => exact Std.LawfulEqOrd.compare_eq_iff_eq.trans not_not.symm
  | strings s t => exact Std.LawfulEqOrd.compare_eq_iff_eq.trans not_not.symm
  | bools x y => exact Std.LawfulEqOrd.compare_eq_iff_eq.trans not_not.symm
  | others hka hkb => cases a <;> cases hka <;> cases b <;> simp [Differ]
  | numbers hka hkb hf =>
    rw [compare_eq_iff_eq]
    cases a <;> cases hka <;> cases b <;> cases hkb
    · simp at hf
    · exact (F64.eq_iff (hnum _) hb).symm.trans (Bool.not_eq_false _).symm.to_iff
    · exact (F64.eq_iff ha (hnum _)).symm.trans (Bool.not_eq_false _).symm.to_iff
    · exact (F64.eq_iff ha hb).symm.trans (Bool.not_eq_false _).symm.to_iff

/-! ## Total preorders -/

/-- Numbers are in order, unless a float stands for two integers. -/
theorem Comparable.numbers_trans {S : Set Value} (h : Comparable S) (hS : ∀ v ∈ S, NotNaN v)
    {a b c : Value} (ha : a ∈ S) (hb : b ∈ S) (hc : c ∈ S) (hka : sortKind a = .number)
    (hkb : sortKind b = .number) (hkc : sortKind c = .number) (hab : (cmpValues a b).isLE)
    (hbc : (cmpValues b c).isLE) : (cmpValues a c).isLE := by
  have hcompared : ∀ x ∈ S, ∀ y ∈ S, sortKind x = .number → sortKind y = .number →
      Compared x y (cmpValues x y) := by
    intro x hx y hy hkx hky
    refine cmpValues_compared ?_ (hS x hx) (hS y hy) (hkx.trans hky.symm)
    rintro rfl
    cases hkx
  have hle := numberRank_le (hcompared a ha b hb hka hkb) hka hab
  have hle' := numberRank_le (hcompared b hb c hc hkb hkc) hkb hbc
  have hac := hcompared a ha c hc hka hkc
  generalize cmpValues a c = o at hac ⊢
  cases hac with
  | numbers => exact Std.isLE_compare.mpr (hle.trans hle')
  | integers i k =>
    cases b with
    | integer j => exact Std.TransOrd.isLE_trans hab hbc
    | float f =>
      -- the float between them rules out that they change places
      apply Std.isLE_compare.mpr
      by_contra hlt
      have hback := F64.rank_ofInt64_mono (Int64.le_of_lt (Int64.not_le.mp hlt))
      have hnum := F64.isNumber_ofInt64
      have heq : i = k := h.exact i k f ha hc hb
        ((F64.eq_iff (hnum i) (hS _ hb)).mpr (le_antisymm hle (hle'.trans hback)))
        ((F64.eq_iff (hnum k) (hS _ hb)).mpr (le_antisymm (hback.trans hle) hle'))
      exact hlt (heq ▸ Int64.le_refl _)
    | _ => cases hkb
  | strings => cases hka
  | bools => cases hka
  | others => rfl

theorem Comparable.trans {S : Set Value} (h : Comparable S) (hS : ∀ v ∈ S, NotNaN v) {a b c : Value}
    (ha : a ∈ S) (hb : b ∈ S) (hc : c ∈ S) (hab : (cmpValues a b).isLE) (hbc : (cmpValues b c).isLE) :
    (cmpValues a c).isLE := by
  by_cases hna : a = .null
  · subst hna
    by_cases hnc : c = .null
    · subst hnc
      rfl
    · rw [cmpValues_null_left hnc]
      rfl
  by_cases hnb : b = .null
  · subst hnb
    rw [cmpValues_null_right hna] at hab
    cases hab
  by_cases hnc : c = .null
  · subst hnc
    rw [cmpValues_null_right hnb] at hbc
    cases hbc
  by_cases hk : sortKind a = sortKind b ∧ sortKind b = sortKind c
  · obtain ⟨hkab, hkbc⟩ := hk
    have hcab := cmpValues_compared hna (hS a ha) (hS b hb) hkab
    generalize ho : cmpValues a b = o at hcab
    rw [ho] at hab
    cases hcab with
    | integers i j => exact h.numbers_trans hS ha hb hc rfl rfl hkbc.symm (ho ▸ hab) hbc
    | numbers hka hkb => exact h.numbers_trans hS ha hb hc hka hkb (hkbc.symm.trans hkb) (ho ▸ hab) hbc
    | strings s t =>
      cases c with
      | string u => exact Std.TransOrd.isLE_trans hab hbc
      | _ => cases hkbc
    | bools x y =>
      cases c with
      | bool z => exact Std.TransOrd.isLE_trans hab hbc
      | _ => cases hkbc
    | others hka hkb => cases a <;> cases hka <;> cases c <;> first | rfl | cases hkb.symm.trans hkbc
  · -- kinds meet, so nothing differs
    have hsame : ∀ x ∈ S, ∀ y ∈ S, ¬ Differ x y := by
      by_cases hkab : sortKind a = sortKind b
      · exact h.unmixed b hb c hc hnb hnc fun hkbc => hk ⟨hkab, hkbc⟩
      · exact h.unmixed a ha b hb hna hnb hkab
    have heq : cmpValues a c = .eq := by
      by_cases hkac : sortKind a = sortKind c
      · exact ((cmpValues_compared hna (hS a ha) (hS c hc) hkac).eq_iff (hS a ha) (hS c hc)).mpr
          (hsame a ha c hc)
      · exact cmpValues_of_kind_ne hna hnc hkac
    rw [heq]
    rfl

/-- An integer and a float compare as equal when the integer is rounded to the float. -/
theorem cmpValues_integer_float {i : Int64} {f : UInt64} (hf : IsNumber f) :
    cmpValues (.integer i) (.float f) = .eq ↔ F64.eq (F64.ofInt64 i) f = true := by
  have hnum := F64.isNumber_ofInt64 i
  rw [cmpValues, F64.partialCmp_eq hnum hf, F64.eq_iff hnum hf]
  exact compare_eq_iff_eq

theorem Differ.not_null {a b : Value} (h : Differ a b) :
    a ≠ .null ∧ b ≠ .null ∧ sortKind a = sortKind b := by
  cases a <;> cases b <;> first | exact h.elim | simp [sortKind]

/-- **The comparator of `ORDER BY`** is a total preorder on a set of values exactly when the set is
comparable. -/
theorem cmpValues_transCmp_iff (S : Set Value) (hS : ∀ v ∈ S, NotNaN v) :
    Std.TransCmp (fun a b : S => cmpValues a b) ↔ Comparable S := by
  constructor
  · intro htrans
    have eq_trans : ∀ {a b c : Value}, a ∈ S → b ∈ S → c ∈ S → cmpValues a b = .eq →
        cmpValues b c = .eq → cmpValues a c = .eq := by
      intro a b c ha hb hc hab hbc
      exact @Std.TransCmp.eq_trans S (fun a b => cmpValues a b) htrans ⟨a, ha⟩ ⟨b, hb⟩ ⟨c, hc⟩ hab hbc
    refine ⟨?_, ?_⟩
    · intro i j f hi hj hf hif hjf
      have hcmp := (cmpValues_integer_float (hS _ hf)).mpr hif
      have hcmp' : cmpValues (.float f) (.integer j) = .eq := by
        rw [cmpValues_swap (b := .integer j) (hS _ hf) trivial, (cmpValues_integer_float (hS _ hf)).mpr hjf]
        rfl
      exact Std.LawfulEqOrd.compare_eq_iff_eq.mp (eq_trans hi hf hj hcmp hcmp')
    · intro a ha b hb hna hnb hk c hc d hd hdiffer
      obtain ⟨hnc, hnd, hkcd⟩ := hdiffer.not_null
      -- one of the two kinds is not that of the values that differ
      obtain ⟨x, hx, hnx, hkx⟩ : ∃ x ∈ S, x ≠ .null ∧ sortKind c ≠ sortKind x := by
        by_cases hkac : sortKind c = sortKind a
        · exact ⟨b, hb, hnb, hkac ▸ hk⟩
        · exact ⟨a, ha, hna, hkac⟩
      have heq := eq_trans hc hx hd (cmpValues_of_kind_ne hnc hnx hkx)
        (cmpValues_of_kind_ne hnx hnd fun h => hkx (hkcd.trans h.symm))
      exact ((cmpValues_compared hnc (hS c hc) (hS d hd) hkcd).eq_iff (hS c hc) (hS d hd)).mp heq hdiffer
  · intro h
    exact {
      eq_swap := fun {a b} => cmpValues_swap (hS a a.2) (hS b b.2)
      isLE_trans := fun {a b c} hab hbc => h.trans hS a.2 b.2 c.2 hab hbc }

/-- One integer and one string. -/
theorem cmpValues_transCmp_pair :
    Std.TransCmp (fun a b : {v : Value | v = .integer 1 ∨ v = .string "a"} => cmpValues a b) := by
  refine (cmpValues_transCmp_iff {v : Value | v = .integer 1 ∨ v = .string "a"} ?_).mpr ⟨?_, ?_⟩
  · rintro v (rfl | rfl) <;> trivial
  · intro i j f hi hj
    simp at hi hj
    exact fun _ _ _ => hi.trans hj.symm
  · rintro - - - - - - - c (rfl | rfl) d (rfl | rfl) <;> simp [Differ]

/-- A string is equal to both of two integers that are not. -/
theorem cmpValues_not_trans :
    ¬ Std.TransCmp fun a b : {v : Value | NotNaN v} => cmpValues a b := by
  intro h
  have heq : cmpValues (.integer 1) (.integer 0) = .eq :=
    @Std.TransCmp.eq_trans {v : Value | NotNaN v} (fun a b => cmpValues a b) h ⟨.integer 1, trivial⟩
      ⟨.string "a", trivial⟩ ⟨.integer 0, trivial⟩ rfl rfl
  revert heq
  decide

end Synaptica.Exec
