import Synaptica.Core.FloatOrder
import Synaptica.Exec.Arithmetic
import Synaptica.Lib.Champion

/-!
# Aggregates and the order of rows

Rows come in the order of random ids. `COUNT` and an integer `SUM` do not depend on it; `MIN` and `MAX`
keep the first value that nothing beats, and values of different types do not beat each other.
-/

namespace Synaptica.Exec

open Gql Storage Binary64

/-- NULL, a boolean, an integer, a float other than NaN, or a string. -/
def Scalar : Value → Prop
  | .null | .bool _ | .integer _ | .string _ => True
  | .float f => IsNumber f
  | _ => False

/-- A zero is neither the least nor the greatest value where both zeros occur. -/
def ZerosInside (vals : List Value) : Prop :=
  .float 0 ∈ vals → .float 0x8000000000000000 ∈ vals →
    (∃ f, .float f ∈ vals ∧ rank f < 0) ∧ ∃ f, .float f ∈ vals ∧ 0 < rank f

/-- Besides NULL there are only integers, only strings, only one boolean, or only floats. -/
def OneKind (vals : List Value) : Prop :=
  (∀ v ∈ vals, v = .null ∨ ∃ i, v = .integer i) ∨
    (∀ v ∈ vals, v = .null ∨ ∃ s, v = .string s) ∨
    (∃ b, ∀ v ∈ vals, v = .null ∨ v = .bool b) ∨
    ((∀ v ∈ vals, v = .null ∨ ∃ f, v = .float f) ∧ ZerosInside vals)

variable (env : Env)

/-- The value of an aggregate is the same for every order of the rows; where it fails, it fails for
every one. -/
def OrderFree (function : AggregateFunction) (distinct : Bool) (arg : Expression)
    (records : List Record) : Prop :=
  ∀ records', records'.Perm records →
    (aggregateValue env function distinct (some arg) records').toOption =
      (aggregateValue env function distinct (some arg) records).toOption

/-! ## Which value beats which -/

theorem beats_gt (v w : Value) : beats .gt v w = beats .lt w v := by
  cases v <;> cases w <;> first | rfl | skip
  · rw [beats, beats, Std.OrientedOrd.eq_swap]
    exact Bool.eq_iff_iff.mpr (by rw [beq_iff_eq, beq_iff_eq, Ordering.swap_eq_gt])
  · rw [beats, beats, Bool.eq_iff_iff, beq_iff_eq, beq_iff_eq, F64.partialCmp_eq_gt,
      F64.partialCmp_eq_lt, and_left_comm]
  · rw [beats, beats, Std.OrientedOrd.eq_swap]
    exact Bool.eq_iff_iff.mpr (by rw [beq_iff_eq, beq_iff_eq, Ordering.swap_eq_gt])

theorem beats_lt_irrefl (v : Value) : beats .lt v v = false := by
  cases v with
  | integer i => rw [beats, Std.ReflOrd.compare_self]; rfl
  | string s => rw [beats, Std.ReflOrd.compare_self]; rfl
  | float f =>
    rw [beats, beq_eq_false_iff_ne, ne_eq, F64.partialCmp_eq_lt]
    exact fun h => lt_irrefl _ h.2.2
  | _ => rfl

theorem beats_lt_trans (u v w : Value) (huv : beats .lt u v) (hvw : beats .lt v w) : beats .lt u w := by
  cases u with
  | integer i =>
    cases v with
    | integer j =>
      cases w with
      | integer k =>
        exact beq_iff_eq.mpr (Std.TransCmp.lt_trans (beq_iff_eq.mp huv) (beq_iff_eq.mp hvw))
      | _ => cases hvw
    | _ => cases huv
  | float x =>
    cases v with
    | float y =>
      cases w with
      | float z =>
        obtain ⟨hx, -, hxy⟩ := F64.partialCmp_eq_lt.mp (beq_iff_eq.mp huv)
        obtain ⟨-, hz, hyz⟩ := F64.partialCmp_eq_lt.mp (beq_iff_eq.mp hvw)
        exact beq_iff_eq.mpr (F64.partialCmp_eq_lt.mpr ⟨hx, hz, hxy.trans hyz⟩)
      | _ => cases hvw
    | _ => cases huv
  | string s =>
    cases v with
    | string t =>
      cases w with
      | string r =>
        exact beq_iff_eq.mpr (Std.TransCmp.lt_trans (beq_iff_eq.mp huv) (beq_iff_eq.mp hvw))
      | _ => cases hvw
    | _ => cases huv
  | _ => cases huv

/-- `beats` in either direction is a strict order. -/
theorem beats_irrefl {ord : Ordering} (hord : ord = .lt ∨ ord = .gt) (v : Value) :
    beats ord v v = false := by
  rcases hord with rfl | rfl
  · exact beats_lt_irrefl v
  · rw [beats_gt]
    exact beats_lt_irrefl v

theorem beats_trans {ord : Ordering} (hord : ord = .lt ∨ ord = .gt) (u v w : Value)
    (huv : beats ord u v) (hvw : beats ord v w) : beats ord u w := by
  rcases hord with rfl | rfl
  · exact beats_lt_trans u v w huv hvw
  · rw [beats_gt] at huv hvw ⊢
    exact beats_lt_trans w v u hvw huv

/-! ## The extremum is a champion -/

theorem beats_null_left (ord : Ordering) (v : Value) : beats ord .null v = false := by
  cases v <;> rfl

/-- The values that `MIN` and `MAX` look at. -/
def nonNull (vals : List Value) : List Value := vals.filter (· ≠ .null)

theorem mem_nonNull {vals : List Value} {v : Value} : v ∈ nonNull vals ↔ v ∈ vals ∧ v ≠ .null := by
  simp [nonNull]

theorem extremum_foldl {ord : Ordering} {best : Value} (hbest : best ≠ .null) (vals : List Value) :
    vals.foldl (fun best v => if best = .null ∨ beats ord v best then v else best) best =
      (nonNull vals).foldl (Champion.step (beats ord)) best := by
  induction vals generalizing best with
  | nil => rfl
  | cons v vals ih =>
    by_cases hv : v = .null
    · have hskip : nonNull (v :: vals) = nonNull vals := by simp [nonNull, hv]
      have hkeep : (if best = .null ∨ beats ord v best then v else best) = best :=
        if_neg (by simp [hbest, hv, beats_null_left])
      rw [List.foldl_cons, hkeep, ih hbest, hskip]
    · have hcons : nonNull (v :: vals) = v :: nonNull vals := by simp [nonNull, hv]
      have hstep : (if best = .null ∨ beats ord v best then v else best) =
          Champion.step (beats ord) best v := by
        simp [Champion.step, hbest]
      have hnext : Champion.step (beats ord) best v ≠ .null := by
        unfold Champion.step
        split_ifs
        · exact hv
        · exact hbest
      rw [List.foldl_cons, hstep, ih hnext, hcons, List.foldl_cons]

/-- `MIN` and `MAX` are the first value, besides NULL, that nothing beats. -/
theorem extremum_eq (ord : Ordering) (vals : List Value) :
    extremum ord vals = (Champion.champion (beats ord) (nonNull vals)).getD .null := by
  unfold extremum
  induction vals with
  | nil => rfl
  | cons v vals ih =>
    by_cases hv : v = .null
    · have hskip : nonNull (v :: vals) = nonNull vals := by simp [nonNull, hv]
      rw [List.foldl_cons, if_pos (.inl rfl), hskip, hv]
      exact ih
    · have hcons : nonNull (v :: vals) = v :: nonNull vals := by simp [nonNull, hv]
      rw [List.foldl_cons, if_pos (.inl rfl), extremum_foldl hv, hcons]
      rfl

/-- No value over some order of the values is NULL, unless there is none. -/
theorem champion_ne_null {ord : Ordering} (hord : ord = .lt ∨ ord = .gt) {vals l : List Value}
    (hp : l.Perm (nonNull vals)) : Champion.champion (beats ord) l ≠ some .null := by
  intro h
  have hmem := (Champion.unbeaten_of_champion (beats_trans hord) (beats_irrefl hord) h).1
  exact (mem_nonNull.mp (hp.mem_iff.mp hmem)).2 rfl

theorem getD_null_inj {o o' : Option Value} (h : o ≠ some .null) (h' : o' ≠ some .null)
    (heq : o.getD .null = o'.getD .null) : o = o' := by
  cases o <;> cases o' <;> simp_all

/-- The extremum is the same for every order exactly when one value is unbeaten. -/
theorem extremum_perm_iff {ord : Ordering} (hord : ord = .lt ∨ ord = .gt) (vals : List Value) :
    (∀ vals', vals'.Perm vals → extremum ord vals' = extremum ord vals) ↔
      ∀ m m', Champion.Unbeaten (beats ord) (nonNull vals) m →
        Champion.Unbeaten (beats ord) (nonNull vals) m' → m = m' := by
  rw [← Champion.champion_perm_iff (beats_trans hord) (beats_irrefl hord)]
  constructor
  · intro h l' hp
    -- the NULLs may as well come last
    have hsplit : (l' ++ vals.filter fun v => !decide (v ≠ .null)).Perm vals :=
      (hp.append_right _).trans (List.filter_append_perm _ vals)
    have hsame : nonNull (l' ++ vals.filter fun v => !decide (v ≠ .null)) = l' := by
      have hleft : nonNull l' = l' := by
        apply List.filter_eq_self.mpr
        intro v hv
        exact decide_eq_true (mem_nonNull.mp (hp.mem_iff.mp hv)).2
      have hright : nonNull (vals.filter fun v => !decide (v ≠ .null)) = [] := by
        simp [nonNull]
      rw [nonNull, List.filter_append]
      exact (congrArg₂ _ hleft hright).trans (List.append_nil l')
    have heq := h _ hsplit
    rw [extremum_eq, extremum_eq, hsame] at heq
    exact getD_null_inj (champion_ne_null hord hp) (champion_ne_null hord (List.Perm.refl _)) heq
  · intro h vals' hp
    have hp' : (nonNull vals').Perm (nonNull vals) := hp.filter _
    rw [extremum_eq, extremum_eq, h _ hp']

/-! ## One unbeaten value -/

theorem eq_of_not_lt {α : Type} [Ord α] [Std.OrientedOrd α] [Std.LawfulEqOrd α] {a b : α}
    (h : compare a b ≠ .lt) (h' : compare b a ≠ .lt) : a = b := by
  cases hcmp : compare a b with
  | lt => exact absurd hcmp h
  | eq => exact Std.LawfulEqOrd.eq_of_compare hcmp
  | gt => exact absurd (Std.OrientedCmp.lt_of_gt hcmp) h'

/-- Only the two zeros share a rank. -/
theorem eq_or_zeros_of_rank_eq {x y : UInt64} (h : rank x = rank y) :
    x = y ∨ (x = 0 ∧ y = 0x8000000000000000) ∨ (x = 0x8000000000000000 ∧ y = 0) := by
  have hx := x.toNat_lt
  have hy := y.toNat_lt
  have hzero : ∀ z : UInt64, z.toNat = 0 → z = 0 := fun z hz => UInt64.toNat_inj.mp hz
  have hneg : ∀ z : UInt64, z.toNat = 2 ^ 63 → z = 0x8000000000000000 :=
    fun z hz => UInt64.toNat_inj.mp hz
  unfold rank at h
  split_ifs at h
  · exact .inl (UInt64.toNat_inj.mp (by omega))
  · exact .inr (.inl ⟨hzero x (by omega), hneg y (by omega)⟩)
  · exact .inr (.inr ⟨hneg x (by omega), hzero y (by omega)⟩)
  · exact .inl (UInt64.toNat_inj.mp (by omega))

/-- A zero is beaten where both occur inside the others. -/
theorem ZerosInside.beaten {vals : List Value} (h : ZerosInside vals)
    (hnum : ∀ v ∈ vals, Scalar v) (hzero : .float 0 ∈ vals) (hneg : .float 0x8000000000000000 ∈ vals)
    {ord : Ordering} (hord : ord = .lt ∨ ord = .gt) {z : UInt64} (hz : rank z = 0) (hmem : .float z ∈ vals) :
    ∃ f, .float f ∈ vals ∧ beats ord (.float f) (.float z) = true := by
  obtain ⟨⟨f, hf, hlow⟩, g, hg, hhigh⟩ := h hzero hneg
  rcases hord with rfl | rfl
  · refine ⟨f, hf, beq_iff_eq.mpr (F64.partialCmp_eq_lt.mpr ⟨hnum _ hf, hnum _ hmem, ?_⟩)⟩
    rw [hz]
    exact hlow
  · refine ⟨g, hg, beq_iff_eq.mpr (F64.partialCmp_eq_gt.mpr ⟨hnum _ hg, hnum _ hmem, ?_⟩)⟩
    rw [hz]
    exact hhigh

/-- One kind leaves one unbeaten value, whether the least or the greatest one wins. -/
theorem OneKind.unbeaten_eq {vals : List Value} (h : OneKind vals) (hscalar : ∀ v ∈ vals, Scalar v)
    {ord : Ordering} (hord : ord = .lt ∨ ord = .gt) {m m' : Value}
    (hm : Champion.Unbeaten (beats ord) (nonNull vals) m)
    (hm' : Champion.Unbeaten (beats ord) (nonNull vals) m') : m = m' := by
  obtain ⟨hmem, hnull⟩ := mem_nonNull.mp hm.1
  obtain ⟨hmem', hnull'⟩ := mem_nonNull.mp hm'.1
  have hle : beats .lt m' m = false ∧ beats .lt m m' = false := by
    have h₁ := hm.2 m' hm'.1
    have h₂ := hm'.2 m hm.1
    rcases hord with rfl | rfl
    · exact ⟨h₁, h₂⟩
    · rw [beats_gt] at h₁ h₂
      exact ⟨h₂, h₁⟩
  rcases h with hint | hstring | ⟨b, hbool⟩ | ⟨hfloat, hzeros⟩
  · obtain ⟨i, rfl⟩ := (hint m hmem).resolve_left hnull
    obtain ⟨j, rfl⟩ := (hint m' hmem').resolve_left hnull'
    exact congrArg _ (eq_of_not_lt (beq_eq_false_iff_ne.mp hle.2) (beq_eq_false_iff_ne.mp hle.1))
  · obtain ⟨s, rfl⟩ := (hstring m hmem).resolve_left hnull
    obtain ⟨t, rfl⟩ := (hstring m' hmem').resolve_left hnull'
    exact congrArg _ (eq_of_not_lt (beq_eq_false_iff_ne.mp hle.2) (beq_eq_false_iff_ne.mp hle.1))
  · exact ((hbool m hmem).resolve_left hnull).trans ((hbool m' hmem').resolve_left hnull').symm
  · obtain ⟨x, rfl⟩ := (hfloat m hmem).resolve_left hnull
    obtain ⟨y, rfl⟩ := (hfloat m' hmem').resolve_left hnull'
    have hx : IsNumber x := hscalar _ hmem
    have hy : IsNumber y := hscalar _ hmem'
    have hxy : ¬ rank x < rank y := fun hlt =>
      beq_eq_false_iff_ne.mp hle.2 (F64.partialCmp_eq_lt.mpr ⟨hx, hy, hlt⟩)
    have hyx : ¬ rank y < rank x := fun hlt =>
      beq_eq_false_iff_ne.mp hle.1 (F64.partialCmp_eq_lt.mpr ⟨hy, hx, hlt⟩)
    have hbeaten : .float 0 ∈ vals → .float 0x8000000000000000 ∈ vals → rank x = 0 → False := by
      intro hzero hneg hrank
      obtain ⟨f, hf, hbeats⟩ := hzeros.beaten hscalar hzero hneg hord hrank hmem
      rw [hm.2 _ (mem_nonNull.mpr ⟨hf, fun h => by cases h⟩)] at hbeats
      cases hbeats
    rcases eq_or_zeros_of_rank_eq (le_antisymm (not_lt.mp hyx) (not_lt.mp hxy)) with
      rfl | ⟨rfl, rfl⟩ | ⟨rfl, rfl⟩
    · rfl
    · exact (hbeaten hmem hmem' (by decide)).elim
    · exact (hbeaten hmem' hmem (by decide)).elim

/-- What beats a value is of its type. -/
theorem beats_lt_type {v w : Value} (h : beats .lt v w = true) :
    (∃ i j, v = .integer i ∧ w = .integer j) ∨ (∃ s t, v = .string s ∧ w = .string t) ∨
      ∃ x y, v = .float x ∧ w = .float y ∧ rank x < rank y := by
  cases v <;> cases w <;> first | cases h | skip
  · exact .inl ⟨_, _, rfl, rfl⟩
  · exact .inr (.inr ⟨_, _, rfl, rfl, (F64.partialCmp_eq_lt.mp (beq_iff_eq.mp h)).2.2⟩)
  · exact .inr (.inl ⟨_, _, rfl, rfl⟩)

/-- One unbeaten value on either side leaves one kind. -/
theorem oneKind_of_unbeaten_eq {vals : List Value} (hscalar : ∀ v ∈ vals, Scalar v)
    (h : ∀ ord, ord = .lt ∨ ord = .gt → ∀ m m', Champion.Unbeaten (beats ord) (nonNull vals) m →
      Champion.Unbeaten (beats ord) (nonNull vals) m' → m = m') : OneKind vals := by
  by_cases hall : ∀ v ∈ vals, v = .null
  · exact .inl fun v hv => .inl (hall v hv)
  · push Not at hall
    obtain ⟨v₀, hv₀, hne₀⟩ := hall
    -- the unbeaten value is each other one, or beats it
    have hreach : ∀ {ord : Ordering}, ord = .lt ∨ ord = .gt → ∃ m, (m ∈ vals ∧ m ≠ .null) ∧
        ∀ v ∈ vals, v = .null ∨ m = v ∨ beats ord m v = true := by
      intro ord hord
      obtain ⟨m, hm, -⟩ := Champion.exists_unbeaten (beats_trans hord) (beats_irrefl hord)
        (mem_nonNull.mpr ⟨hv₀, hne₀⟩)
      refine ⟨m, mem_nonNull.mp hm.1, fun v hv => ?_⟩
      by_cases hv' : v = .null
      · exact .inl hv'
      · obtain ⟨m', hm', hor⟩ := Champion.exists_unbeaten (beats_trans hord) (beats_irrefl hord)
          (mem_nonNull.mpr ⟨hv, hv'⟩)
        rw [h ord hord m m' hm hm']
        exact .inr hor
    obtain ⟨m, ⟨hmem, hnull⟩, hbelow⟩ := hreach (.inl rfl)
    obtain ⟨m', ⟨hmem', hnull'⟩, habove⟩ := hreach (.inr rfl)
    cases m with
    | null => exact absurd rfl hnull
    | bool b =>
      refine .inr (.inr (.inl ⟨b, fun v hv => ?_⟩))
      rcases hbelow v hv with hv' | hv' | hbeats
      · exact .inl hv'
      · exact .inr hv'.symm
      · cases v <;> cases hbeats
    | integer i =>
      refine .inl fun v hv => ?_
      rcases hbelow v hv with hv' | hv' | hbeats
      · exact .inl hv'
      · exact .inr ⟨i, hv'.symm⟩
      · obtain ⟨-, j, -, hj⟩ | ⟨s, t, hs, -⟩ | ⟨x, y, hx, -⟩ := beats_lt_type hbeats
        · exact .inr ⟨j, hj⟩
        · cases hs
        · cases hx
    | string s =>
      refine .inr (.inl fun v hv => ?_)
      rcases hbelow v hv with hv' | hv' | hbeats
      · exact .inl hv'
      · exact .inr ⟨s, hv'.symm⟩
      · obtain ⟨i, j, hi, -⟩ | ⟨-, t, -, ht⟩ | ⟨x, y, hx, -⟩ := beats_lt_type hbeats
        · cases hi
        · exact .inr ⟨t, ht⟩
        · cases hx
    | float x =>
      have hfloat : ∀ v ∈ vals, v = .null ∨ ∃ f, v = .float f := by
        intro v hv
        rcases hbelow v hv with hv' | hv' | hbeats
        · exact .inl hv'
        · exact .inr ⟨x, hv'.symm⟩
        · obtain ⟨i, j, hi, -⟩ | ⟨s, t, hs, -⟩ | ⟨-, y, -, hy, -⟩ := beats_lt_type hbeats
          · cases hi
          · cases hs
          · exact .inr ⟨y, hy⟩
      obtain ⟨y, rfl⟩ := (hfloat m' hmem').resolve_left hnull'
      refine .inr (.inr (.inr ⟨hfloat, fun hzero hneg => ⟨⟨x, hmem, ?_⟩, y, hmem', ?_⟩⟩))
      · -- the least value cannot be both zeros
        rcases (hbelow _ hzero).resolve_left (fun h => by cases h) with heq | hbeats
        · cases heq
          rcases (hbelow _ hneg).resolve_left (fun h => by cases h) with heq' | hbeats'
          · cases heq'
          · exact absurd (F64.partialCmp_eq_lt.mp (beq_iff_eq.mp hbeats')).2.2 (by decide)
        · exact (F64.partialCmp_eq_lt.mp (beq_iff_eq.mp hbeats)).2.2
      · -- nor can the greatest one
        rcases (habove _ hzero).resolve_left (fun h => by cases h) with heq | hbeats
        · cases heq
          rcases (habove _ hneg).resolve_left (fun h => by cases h) with heq' | hbeats'
          · cases heq'
          · exact absurd (F64.partialCmp_eq_gt.mp (beq_iff_eq.mp hbeats')).2.2 (by decide)
        · exact (F64.partialCmp_eq_gt.mp (beq_iff_eq.mp hbeats)).2.2
    | _ => exact (hscalar _ hmem).elim

/-- **`MIN` and `MAX`** over some values are the same for every order exactly when the values are of one
kind. -/
theorem extremum_perm_iff_oneKind {vals : List Value} (hscalar : ∀ v ∈ vals, Scalar v) :
    (∀ ord, ord = .lt ∨ ord = .gt → ∀ vals', vals'.Perm vals → extremum ord vals' = extremum ord vals) ↔
      OneKind vals := by
  constructor
  · intro h
    exact oneKind_of_unbeaten_eq hscalar fun ord hord => (extremum_perm_iff hord vals).mp (h ord hord)
  · intro h ord hord
    exact (extremum_perm_iff hord vals).mpr fun m m' => h.unbeaten_eq hscalar hord

/-! ## Aggregates -/

/-- The arguments on reordered rows are the reordered arguments. -/
theorem aggregateArgs_perm {arg : Expression} {records records' : List Record}
    (hp : records'.Perm records) {vals : List Value}
    (h : aggregateArgs env (some arg) records = .ok vals) :
    ∃ vals', aggregateArgs env (some arg) records' = .ok vals' ∧ vals'.Perm vals := by
  have hok := List.forall_ok_of_mapM_eq_ok h
  have hvals := List.mapM_eq_ok_filterMap hok
  have hvals' := List.mapM_eq_ok_filterMap (l := records') fun r hr => hok r (hp.mem_iff.mp hr)
  refine ⟨_, hvals', ?_⟩
  rw [Except.ok.inj (h.symm.trans hvals)]
  exact hp.filterMap _

theorem aggregateArgs_error_perm {arg : Expression} {records records' : List Record}
    (hp : records'.Perm records) {e : ExecError}
    (h : aggregateArgs env (some arg) records = .error e) :
    ∃ e', aggregateArgs env (some arg) records' = .error e' := by
  cases h' : aggregateArgs env (some arg) records' with
  | error e' => exact ⟨e', rfl⟩
  | ok vals =>
    obtain ⟨vals', hvals', -⟩ := aggregateArgs_perm env hp.symm h'
    rw [h] at hvals'
    cases hvals'

/-- Reordered arguments are the arguments on reordered rows. -/
theorem exists_records_of_perm {arg : Expression} {records : List Record} {vals vals' : List Value}
    (h : aggregateArgs env (some arg) records = .ok vals) (hp : vals'.Perm vals) :
    ∃ records', records'.Perm records ∧ aggregateArgs env (some arg) records' = .ok vals' := by
  let value (r : Record) : Value := (evaluate env r arg).toOption.getD .null
  have hok := List.forall_ok_of_mapM_eq_ok h
  have hmap : ∀ rs : List Record, (∀ r ∈ rs, r ∈ records) →
      aggregateArgs env (some arg) rs = .ok (rs.map value) := by
    intro rs hrs
    show rs.mapM (fun r => evaluate env r arg) = _
    rw [List.mapM_congr_left (g := fun r => pure (value r))]
    · exact List.mapM_pure
    · intro r hr
      obtain ⟨v, hv⟩ := hok r (hrs r hr)
      simp [value, hv, Except.toOption, pure, Except.pure]
  have hvals : vals = records.map value := Except.ok.inj (h.symm.trans (hmap records fun _ hr => hr))
  have hlift := congrFun₂ (List.eq_map_comp_perm value) vals' records
  obtain ⟨records', rfl, hperm⟩ := hlift.mpr (hvals ▸ hp)
  exact ⟨records', hperm, hmap records' fun r hr => hperm.mem_iff.mp hr⟩

/-- An aggregate that computes with the argument values depends on the order of rows as that
computation does on the order of the values. -/
theorem orderFree_iff {function : AggregateFunction} (distinct : Bool) (compute : List Value → Value)
    (hvalue : ∀ arg records, aggregateValue env function distinct (some arg) records =
      compute <$> aggregateArgs env (some arg) records) (arg : Expression) (records : List Record) :
    OrderFree env function distinct arg records ↔
      ∀ vals, aggregateArgs env (some arg) records = .ok vals →
        ∀ vals', vals'.Perm vals → compute vals' = compute vals := by
  constructor
  · intro h vals hvals vals' hp
    obtain ⟨records', hperm, hvals'⟩ := exists_records_of_perm env hvals hp
    have heq := h records' hperm
    rw [hvalue, hvalue, hvals, hvals'] at heq
    exact Option.some_inj.mp heq
  · intro h records' hp
    rw [hvalue, hvalue]
    cases hvals : aggregateArgs env (some arg) records with
    | error e =>
      obtain ⟨e', he'⟩ := aggregateArgs_error_perm env hp hvals
      rw [he']
      rfl
    | ok vals =>
      obtain ⟨vals', hvals', hperm⟩ := aggregateArgs_perm env hp hvals
      rw [hvals']
      exact congrArg some (h vals hvals vals' hperm)

/-- `COUNT` counts the same values in every order. -/
theorem count_orderFree (distinct : Bool) (arg : Expression) (records : List Record) :
    OrderFree env .count distinct arg records := by
  intro records' hp
  have hperm : (countedValues env arg records').Perm (countedValues env arg records) := hp.filterMap _
  have hdistinct := (hperm.map fun v => v.debug env.debug).dedup.length_eq
  simp only [aggregateValue, hdistinct, hperm.length_eq]

/-- Without floats, `SUM` adds up to the same total in every order. -/
theorem sum_orderFree (distinct : Bool) {arg : Expression} {records : List Record}
    (h : ∀ r ∈ records, ∀ f, evaluate env r arg ≠ .ok (.float f)) :
    OrderFree env .sum distinct arg records := by
  apply (orderFree_iff env distinct _ (fun _ _ => rfl) arg records).mpr
  intro vals hvals vals' hp
  have hnone : ∀ f, .float f ∉ vals := by
    intro f hf
    obtain ⟨r, hr, hv⟩ := List.exists_of_mem_mapM hvals hf
    exact h r hr f hv
  obtain ⟨i, hi, htotal⟩ := sumValues_toInt hnone
  obtain ⟨j, hj, htotal'⟩ := sumValues_toInt fun f hf => hnone f (hp.mem_iff.mp hf)
  have heq : integerTotal vals' = integerTotal vals := (hp.map _).sum_eq
  rw [hi, hj, Int64.toInt_inj.mp (htotal'.trans ((congrArg (Int.bmod · _) heq).trans htotal.symm))]

/-- **Aggregates and the order of rows**: `COUNT` and an integer `SUM` never depend on it, `MIN` and `MAX`
do not exactly when the argument fails on some row or its values are of one kind. -/
theorem aggregates_orderFree_iff (arg : Expression) (records : List Record)
    (hscalar : ∀ r ∈ records, ∀ v, evaluate env r arg = .ok v → Scalar v) :
    ((∀ distinct, OrderFree env .count distinct arg records ∧ OrderFree env .min distinct arg records ∧
        OrderFree env .max distinct arg records) ∧
      ((∀ r ∈ records, ∀ f, evaluate env r arg ≠ .ok (.float f)) →
        ∀ distinct, OrderFree env .sum distinct arg records)) ↔
      ∀ vals, aggregateArgs env (some arg) records = .ok vals → OneKind vals := by
  have hvals : ∀ vals, aggregateArgs env (some arg) records = .ok vals → ∀ v ∈ vals, Scalar v := by
    intro vals hvals v hv
    obtain ⟨r, hr, hv⟩ := List.exists_of_mem_mapM hvals hv
    exact hscalar r hr v hv
  have hmin : ∀ distinct, OrderFree env .min distinct arg records ↔ _ := fun distinct =>
    orderFree_iff env distinct (extremum .lt) (fun _ _ => rfl) arg records
  have hmax : ∀ distinct, OrderFree env .max distinct arg records ↔ _ := fun distinct =>
    orderFree_iff env distinct (extremum .gt) (fun _ _ => rfl) arg records
  constructor
  · rintro ⟨h, -⟩ vals hvals'
    obtain ⟨-, hmin', hmax'⟩ := h false
    apply (extremum_perm_iff_oneKind (hvals vals hvals')).mp
    rintro ord (rfl | rfl)
    · exact (hmin false).mp hmin' vals hvals'
    · exact (hmax false).mp hmax' vals hvals'
  · intro h
    have hboth := fun vals hvals' => (extremum_perm_iff_oneKind (hvals vals hvals')).mpr (h vals hvals')
    refine ⟨fun distinct => ⟨count_orderFree env distinct arg records, ?_, ?_⟩, ?_⟩
    · exact (hmin distinct).mpr fun vals hvals' => hboth vals hvals' .lt (.inl rfl)
    · exact (hmax distinct).mpr fun vals hvals' => hboth vals hvals' .gt (.inr rfl)
    · exact fun hfloat distinct => sum_orderFree env distinct hfloat

/-- A row with one column. -/
def rowOf (v : Value) : Record := ⟨["x"], [v]⟩

/-- The aggregates of 1 and 2 do not depend on their order. -/
theorem aggregates_orderFree_integers :
    OrderFree (sampleEnv sampleBincode) .min false (.identifier "x")
      [rowOf (.integer 1), rowOf (.integer 2)] := by
  have hvalues : ∀ r ∈ [rowOf (.integer 1), rowOf (.integer 2)], ∀ v,
      evaluate (sampleEnv sampleBincode) r (.identifier "x") = .ok v → ∃ i, v = .integer i := by
    intro r hr v hv
    simp at hr
    rcases hr with rfl | rfl
    · exact ⟨1, (Except.ok.inj hv).symm⟩
    · exact ⟨2, (Except.ok.inj hv).symm⟩
  have h := (aggregates_orderFree_iff (sampleEnv sampleBincode) (.identifier "x")
    [rowOf (.integer 1), rowOf (.integer 2)] ?_).mpr ?_
  · exact (h.1 false).2.1
  · intro r hr v hv
    obtain ⟨i, rfl⟩ := hvalues r hr v hv
    trivial
  · intro vals hvals
    refine .inl fun v hv => .inr ?_
    obtain ⟨r, hr, hv⟩ := List.exists_of_mem_mapM hvals hv
    exact hvalues r hr v hv

/-- The least of 1 and "a" is the one that comes first. -/
theorem min_not_orderFree :
    ¬ OrderFree (sampleEnv sampleBincode) .min false (.identifier "x")
      [rowOf (.integer 1), rowOf (.string "a")] := by
  intro h
  have heq := h [rowOf (.string "a"), rowOf (.integer 1)] (List.Perm.swap _ _ _)
  revert heq
  decide

end Synaptica.Exec
