import Synaptica.Exec.Sequencing
import Synaptica.Lib.Fallible

/-!
# Integer arithmetic

`eval_arithmetic` relies on a panic to notice an overflow, and `SUM` adds without looking. In the release
profile only a division panics; everything else wraps, so the result is exact when it fits.
-/

namespace Synaptica.Exec

open Gql Storage

/-- The integers that an `i64` holds. -/
def FitsI64 (n : Int) : Prop := -2 ^ 63 ≤ n ∧ n < 2 ^ 63

/-- What an arithmetic operator means on integers; division truncates. -/
def exactOp : BinaryOp → Option (Int → Int → Int)
  | .add => some (· + ·)
  | .sub => some (· - ·)
  | .mul => some (· * ·)
  | .div => some Int.tdiv
  | .mod => some Int.tmod
  | _ => none

/-- An answer is exact or an error. -/
def ExactOrError (answer : Except ExecError Value) (n : Int) : Prop :=
  (∃ i : Int64, answer = .ok (.integer i) ∧ i.toInt = n) ∨ ∃ e, answer = .error e

/-- The sum of the integers among some values. -/
def integerTotal (vals : List Value) : Int :=
  (vals.map fun
    | .integer n => n.toInt
    | _ => 0).sum

variable (env : Env)

/-! ## Wrapping -/

theorem bmod_eq_self_iff (n : Int) : n.bmod (2 ^ 64) = n ↔ FitsI64 n := by
  unfold FitsI64
  rw [Int.bmod_def]
  split_ifs <;> omega

theorem exactOrError_ok {i : Int64} {n : Int} : ExactOrError (.ok (.integer i)) n ↔ i.toInt = n := by
  constructor
  · rintro (⟨j, hj, rfl⟩ | ⟨e, he⟩)
    · cases hj
      rfl
    · cases he
  · intro h
    exact .inl ⟨i, rfl, h⟩

theorem exactOrError_error (e : ExecError) (n : Int) : ExactOrError (.error e) n :=
  .inr ⟨e, rfl⟩

/-- An operation that wraps is exact when its result fits. -/
theorem exactOrError_wrapped {i : Int64} {n : Int} (h : i.toInt = n.bmod (2 ^ 64)) :
    ExactOrError (.ok (.integer i)) n ↔ FitsI64 n := by
  rw [exactOrError_ok, h, bmod_eq_self_iff]

/-- A division by an integer other than zero is exact, or the panic is caught. -/
theorem exactOrError_division {op : Int64 → Int64 → Int64} {f : Int → Int → Int} {a b : Int64}
    (h : ¬ (a = Int64.minValue ∧ b = -1) → (op a b).toInt = f a.toInt b.toInt)
    (floatOp : UInt64 → UInt64 → UInt64) :
    ExactOrError (evalArithmetic (.integer a) (.integer b) (checkedDivision op) floatOp)
      (f a.toInt b.toInt) := by
  unfold evalArithmetic checkedDivision
  by_cases hpanic : a = Int64.minValue ∧ b = -1
  · simp only [if_pos hpanic]
    exact exactOrError_error _ _
  · simp only [if_neg hpanic]
    exact exactOrError_ok.mpr (h hpanic)

theorem toInt_div {a b : Int64} (h : ¬ (a = Int64.minValue ∧ b = -1)) :
    (a / b).toInt = a.toInt.tdiv b.toInt := by
  by_cases ha : a = Int64.minValue
  · exact Int64.toInt_div_of_ne_right a b fun hb => h ⟨ha, hb⟩
  · exact Int64.toInt_div_of_ne_left a b ha

/-! ## Operators -/

theorem evalBinaryOp_exact_iff {op : BinaryOp} {f : Int → Int → Int} (hop : exactOp op = some f)
    (a b : Int64) : ExactOrError (evalBinaryOp (.integer a) op (.integer b)) (f a.toInt b.toInt) ↔
      op = .div ∨ op = .mod ∨ FitsI64 (f a.toInt b.toInt) := by
  cases op <;> cases hop
  · exact (exactOrError_wrapped (Int64.toInt_add a b)).trans (by simp)
  · exact (exactOrError_wrapped (Int64.toInt_sub a b)).trans (by simp)
  · exact (exactOrError_wrapped (Int64.toInt_mul a b)).trans (by simp)
  · refine iff_of_true ?_ (.inl rfl)
    unfold evalBinaryOp
    by_cases hzero : isZero (.integer b) = true
    · simp only [if_pos hzero]
      exact exactOrError_error _ _
    · simp only [if_neg hzero]
      exact exactOrError_division toInt_div F64.div
  · refine iff_of_true ?_ (.inr (.inl rfl))
    unfold evalBinaryOp
    by_cases hzero : isZero (.integer b) = true
    · simp only [if_pos hzero]
      exact exactOrError_error _ _
    · simp only [if_neg hzero]
      exact exactOrError_division (fun _ => Int64.toInt_mod a b) F64.rem

/-- Negation is checked. -/
theorem evalUnaryOp_neg_exact (a : Int64) : ExactOrError (evalUnaryOp .neg (.integer a)) (-a.toInt) := by
  unfold evalUnaryOp
  by_cases hmin : a = Int64.minValue
  · simp only [if_pos hmin]
    exact exactOrError_error _ _
  · simp only [if_neg hmin]
    apply exactOrError_ok.mpr
    have hlow := a.le_toInt
    have hhigh := a.toInt_lt
    have hne : a.toInt ≠ -2 ^ 63 := fun h => hmin (Int64.toInt_inj.mp h)
    rw [Int64.toInt_neg, bmod_eq_self_iff]
    unfold FitsI64
    omega

/-! ## Sums -/

/-- One value of a `SUM`: the integer total, whether a float was seen, the float total. -/
def sumStep (acc : Int64 × Bool × UInt64) (v : Value) : Int64 × Bool × UInt64 :=
  match v with
  | .integer n => (acc.1 + n, acc.2.1, F64.add acc.2.2 (F64.ofInt64 n))
  | .float f => (acc.1, true, F64.add acc.2.2 f)
  | _ => acc

theorem sumValues_eq (vals : List Value) : sumValues vals =
    let acc := vals.foldl sumStep (0, false, 0)
    if acc.2.1 then .float acc.2.2 else .integer acc.1 :=
  rfl

theorem integerTotal_cons (v : Value) (vals : List Value) :
    integerTotal (v :: vals) = integerTotal [v] + integerTotal vals := by
  simp [integerTotal]

/-- Each step adds its value, modulo 2^64. -/
theorem sumStep_spec (acc : Int64 × Bool × UInt64) {v : Value} (h : ∀ f, v ≠ .float f) :
    (sumStep acc v).2.1 = acc.2.1 ∧
      (sumStep acc v).1.toInt = (acc.1.toInt + integerTotal [v]).bmod (2 ^ 64) := by
  cases v with
  | float f => exact absurd rfl (h f)
  | integer n => exact ⟨rfl, by simp [sumStep, integerTotal]⟩
  | _ => exact ⟨rfl, by simp [sumStep, integerTotal]⟩

theorem foldl_sumStep {vals : List Value} (h : ∀ f, .float f ∉ vals) (acc : Int64 × Bool × UInt64) :
    (vals.foldl sumStep acc).2.1 = acc.2.1 ∧
      (vals.foldl sumStep acc).1.toInt = (acc.1.toInt + integerTotal vals).bmod (2 ^ 64) := by
  induction vals generalizing acc with
  | nil => exact ⟨rfl, by simp [integerTotal]⟩
  | cons v vals ih =>
    obtain ⟨hflag, htotal⟩ := sumStep_spec acc fun f hf => h f (hf ▸ List.mem_cons_self)
    obtain ⟨hflag', htotal'⟩ := ih (fun f hf => h f (List.mem_cons_of_mem _ hf)) (sumStep acc v)
    refine ⟨hflag'.trans hflag, ?_⟩
    rw [List.foldl_cons, htotal', htotal, Int.bmod_add_bmod, integerTotal_cons v vals, add_assoc]

/-- Without floats, a `SUM` is the total modulo 2^64. -/
theorem sumValues_toInt {vals : List Value} (h : ∀ f, .float f ∉ vals) :
    ∃ i : Int64, sumValues vals = .integer i ∧ i.toInt = (integerTotal vals).bmod (2 ^ 64) := by
  obtain ⟨hflag, htotal⟩ := foldl_sumStep h (0, false, 0)
  refine ⟨_, ?_, htotal.trans (congrArg (Int.bmod · _) (zero_add _))⟩
  rw [sumValues_eq]
  exact if_neg (by rw [hflag]; decide)

/-- The values a `SUM` adds up: none when there is no argument. -/
theorem aggregateArgs_eq_ok {arg : Option Expression} {records : List Record} {vals : List Value}
    (h : aggregateArgs env arg records = .ok vals) {v : Value} (hv : v ∈ vals) :
    ∃ inner ∈ arg, ∃ r ∈ records, evaluate env r inner = .ok v := by
  cases arg with
  | none =>
    cases h
    cases hv
  | some inner => exact ⟨inner, rfl, List.exists_of_mem_mapM h hv⟩

/-! ## All operations -/

/-- **Integer arithmetic is exact or an error** exactly where the result fits, or the operator divides;
a negation always is, and a `SUM` where its total fits. -/
theorem integer_arithmetic_exact_iff :
    (∀ op f, exactOp op = some f → ∀ context left right a b,
      evaluate env context left = .ok (.integer a) → evaluate env context right = .ok (.integer b) →
      (ExactOrError (evaluate env context (.binaryOp left op right)) (f a.toInt b.toInt) ↔
        op = .div ∨ op = .mod ∨ FitsI64 (f a.toInt b.toInt))) ∧
    (∀ context operand a, evaluate env context operand = .ok (.integer a) →
      ExactOrError (evaluate env context (.unaryOp .neg operand)) (-a.toInt)) ∧
    ∀ distinct arg records,
      (∀ inner ∈ arg, ∀ r ∈ records, ∀ f, evaluate env r inner ≠ .ok (.float f)) →
      (∀ vals, aggregateArgs env arg records = .ok vals →
        (ExactOrError (aggregateValue env .sum distinct arg records) (integerTotal vals) ↔
          FitsI64 (integerTotal vals))) ∧
      ∀ e, aggregateArgs env arg records = .error e →
        aggregateValue env .sum distinct arg records = .error e := by
  refine ⟨?_, ?_, ?_⟩
  · intro op f hop context left right a b hl hr
    have heval : evaluate env context (.binaryOp left op right) =
        evalBinaryOp (.integer a) op (.integer b) := by
      cases op <;> cases hop <;> simp only [evaluate, hl, hr, Except.ok_bind]
    rw [heval]
    exact evalBinaryOp_exact_iff hop a b
  · intro context operand a ha
    rw [evaluate, ha, Except.ok_bind]
    exact evalUnaryOp_neg_exact a
  · intro distinct arg records hfloat
    have hsum : aggregateValue env .sum distinct arg records = sumValues <$> aggregateArgs env arg records :=
      rfl
    refine ⟨?_, ?_⟩
    · intro vals hvals
      have hnone : ∀ f, .float f ∉ vals := by
        intro f hf
        obtain ⟨inner, hinner, r, hr, hv⟩ := aggregateArgs_eq_ok env hvals hf
        exact hfloat inner hinner r hr f hv
      obtain ⟨i, hi, htotal⟩ := sumValues_toInt hnone
      rw [hsum, hvals]
      show ExactOrError (.ok (sumValues vals)) _ ↔ _
      rw [hi]
      exact exactOrError_wrapped htotal
    · intro e he
      rw [hsum, he]
      rfl

/-- One plus one, minus one, and the sum of one row. -/
theorem integer_arithmetic_exact_small :
    ExactOrError (evaluate (sampleEnv sampleBincode) ⟨[], []⟩
        (.binaryOp (.literal (.integer 1)) .add (.literal (.integer 1)))) ((1 : Int) + 1) ∧
      ExactOrError (evaluate (sampleEnv sampleBincode) ⟨[], []⟩ (.unaryOp .neg (.literal (.integer 1))))
        (-1) ∧
      ExactOrError (aggregateValue (sampleEnv sampleBincode) .sum false (some (.literal (.integer 1)))
        [⟨[], []⟩]) 1 := by
  obtain ⟨hbinary, hneg, hsum⟩ := integer_arithmetic_exact_iff (sampleEnv sampleBincode)
  refine ⟨?_, ?_, ?_⟩
  · exact (hbinary .add (· + ·) rfl ⟨[], []⟩ (.literal (.integer 1)) (.literal (.integer 1)) 1 1 rfl
      rfl).mpr (.inr (.inr (by unfold FitsI64; decide)))
  · exact hneg ⟨[], []⟩ (.literal (.integer 1)) 1 rfl
  · have hfloat : ∀ inner ∈ some (Expression.literal (.integer 1)), ∀ r ∈ [(⟨[], []⟩ : Record)], ∀ f,
        evaluate (sampleEnv sampleBincode) r inner ≠ .ok (.float f) := by
      intro inner hinner r _ f
      cases hinner
      exact fun h => by cases h
    exact ((hsum false _ [⟨[], []⟩] hfloat).1 [.integer 1] rfl).mpr (by unfold FitsI64; decide)

/-- The greatest integer plus one wraps to the least one. -/
theorem add_not_exact : ¬ ExactOrError (evaluate (sampleEnv sampleBincode) ⟨[], []⟩
    (.binaryOp (.literal (.integer Int64.maxValue)) .add (.literal (.integer 1))))
    (Int64.maxValue.toInt + 1) := by
  have hvalue : evaluate (sampleEnv sampleBincode) ⟨[], []⟩
      (.binaryOp (.literal (.integer Int64.maxValue)) .add (.literal (.integer 1))) =
      .ok (.integer Int64.minValue) := by
    decide
  rw [hvalue, exactOrError_ok]
  decide

end Synaptica.Exec
