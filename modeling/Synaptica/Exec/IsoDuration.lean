import Synaptica.Exec.Expression
import Synaptica.Lib.Fallible
import Synaptica.Lib.Segments

/-!
# Reading durations

`parse_iso_duration` of `synaptica_exec::expression` collects digits in a buffer and empties it at
every unit, adding to a month count, a day count and nanoseconds. Two things escape it: what is in
the buffer at the end of a part is dropped, and the sums wrap. `exactDuration_iff` says that these
are the only two.
-/

namespace Synaptica.Exec

/-! ## What a duration means -/

/-- A whole number, in digits with an optional minus sign. -/
def numberValue : List Char → Option Int
  | '-' :: digits => (readDigits digits).map fun n : Nat => -(n : Int)
  | digits => (readDigits digits).map Int.ofNat

/-- The text of a number and the unit behind it. -/
abbrev NumberUnit := List Char × Char

/-- The months and the days that a pair of the date part stands for; the number is an `i32`. -/
def dateValue (pair : NumberUnit) : Option (Int × Int) := do
  let n ← (numberValue pair.1).filter fun n => decide (-2 ^ 31 ≤ n ∧ n ≤ 2 ^ 31 - 1)
  match pair.2 with
  | 'Y' => some (12 * n, 0)
  | 'M' => some (n, 0)
  | 'D' => some (0, n)
  | 'W' => some (0, 7 * n)
  | _ => none

/-- The nanoseconds that a pair of the time part stands for; the number is an `i64`. -/
def timeValue (pair : NumberUnit) : Option Int := do
  let n ← (numberValue pair.1).filter fun n => decide (-2 ^ 63 ≤ n ∧ n ≤ 2 ^ 63 - 1)
  match pair.2 with
  | 'H' => some (3600000000000 * n)
  | 'M' => some (60000000000 * n)
  | _ => none

/-- The pairs have these values, one after the other. -/
abbrev Means {α : Type} (value : NumberUnit → Option α) (pairs : List NumberUnit) (values : List α) :
    Prop :=
  List.Forall₂ (fun pair v => value pair = some v) pairs values

/-- The text is `P`, pairs of the date part, and optionally `T` and pairs of the time part. -/
def Writes (text : List Char) (date time : List NumberUnit) : Prop :=
  text = 'P' :: Segments.join date ∧ time = [] ∨
    text = 'P' :: (Segments.join date ++ 'T' :: Segments.join time)

/-- The text is accepted only as number-unit pairs, and then for the exact sums. -/
def ReadsExactly (s : String) : Prop :=
  ∀ d, parseIsoDuration s = .ok d →
    ∃ date time values nanos, Writes (trim s.toList) date time ∧ Means dateValue date values ∧
      Means timeValue time nanos ∧ d.months.toInt = (values.map Prod.fst).sum ∧
      d.days.toInt = (values.map Prod.snd).sum ∧ d.nanos.toInt = nanos.sum

/-! ## What the reader cuts -/

/-- The characters that the date part collects. -/
def inDateNumber (ch : Char) : Bool := ch.isDigit || ch == '-'

/-- The characters that the time part collects. -/
def inTimeNumber (ch : Char) : Bool := ch.isDigit || ch == '.' || ch == '-'

/-- What is behind the `P`, up to the first `T`. -/
def datePart (s : String) : List Char := ((trim s.toList).drop 1).takeWhile (· != 'T')

/-- What is behind the first `T`. -/
def timePart (s : String) : List Char := (((trim s.toList).drop 1).dropWhile (· != 'T')).drop 1

/-- The pairs of the date part, and what is left behind the last unit. -/
def datePairs (s : String) : List NumberUnit × List Char :=
  Segments.cut inDateNumber [] (datePart s)

/-- The pairs of the time part, and what is left behind the last unit. -/
def timePairs (s : String) : List NumberUnit × List Char :=
  Segments.cut inTimeNumber [] (timePart s)

def FitsI32 (n : Int) : Prop := -2 ^ 31 ≤ n ∧ n < 2 ^ 31

/-- If all pairs can be read, nothing is left behind the last unit of either part, and the exact sums
fit. -/
def ClosedAndFits (s : String) : Prop :=
  (trim s.toList).head? = some 'P' →
    ∀ values nanos, Means dateValue (datePairs s).1 values → Means timeValue (timePairs s).1 nanos →
      (datePairs s).2 = [] ∧ (timePairs s).2 = [] ∧ FitsI32 (values.map Prod.fst).sum ∧
        FitsI32 (values.map Prod.snd).sum ∧ -2 ^ 63 ≤ nanos.sum ∧ nanos.sum < 2 ^ 63

/-! ## Numbers -/

/-- The code reads a number that fits, and no other; a plus sign does not get into the buffer. -/
theorem parseInt_eq {text : List Char} (h : '+' ∉ text) (lo hi : Int) :
    parseInt lo hi (String.ofList text) =
      (numberValue text).filter fun n => decide (lo ≤ n ∧ n ≤ hi) := by
  unfold parseInt numberValue
  rw [String.toList_ofList]
  cases text with
  | nil => rfl
  | cons c cs =>
    by_cases hminus : c = '-'
    · subst hminus
      cases hdigits : readDigits cs with
      | none => simp [hdigits]
      | some n => simp [hdigits]
    · have hplus : c ≠ '+' := by
        rintro rfl
        exact h List.mem_cons_self
      simp [hminus, hplus]

theorem isDigit_of_readDigits {digits : List Char} {n : Nat} (h : readDigits digits = some n) :
    ∀ c ∈ digits, c.isDigit := by
  unfold readDigits at h
  split at h
  · cases h
  · next hdigits =>
    have hall : ¬ digits = [] ∧ ∀ c ∈ digits, c.isDigit = true := by simpa using hdigits
    exact hall.2

/-- A number consists of characters that are collected. -/
theorem all_of_numberValue {text : List Char} {n : Int} (h : numberValue text = some n) :
    ∀ c ∈ text, inDateNumber c := by
  have hdigit : ∀ c : Char, c.isDigit → inDateNumber c := by
    intro c hc
    simp [inDateNumber, hc]
  unfold numberValue at h
  split at h
  · next digits =>
    obtain ⟨k, hk, -⟩ := Option.map_eq_some_iff.mp h
    intro c hc
    rcases List.mem_cons.mp hc with rfl | hmem
    · rfl
    · exact hdigit c (isDigit_of_readDigits hk c hmem)
  · obtain ⟨k, hk, -⟩ := Option.map_eq_some_iff.mp h
    intro c hc
    exact hdigit c (isDigit_of_readDigits hk c hc)

theorem plus_notMem {p : Char → Bool} (hp : p '+' = false) {text : List Char} (h : ∀ c ∈ text, p c) :
    '+' ∉ text := by
  intro hmem
  have hplus := h '+' hmem
  rw [hp] at hplus
  cases hplus

/-! ## The date part -/

theorem ofInt32_mul (k : Int) (n : Int) : Int32.ofInt (k * n) = Int32.ofInt n * Int32.ofInt k := by
  rw [Int32.ofInt_mul, Int32.mul_comm]

/-- A unit closes a pair, whose value is added to the counts. -/
theorem durationDate_unit {months days : Int32} {buffer cs : List Char} {ch : Char}
    (hbuffer : ∀ c ∈ buffer, inDateNumber c) (hch : inDateNumber ch = false)
    {r : Int32 × Int32} : durationDate months days buffer (ch :: cs) = .ok r ↔
      ∃ v, dateValue (buffer, ch) = some v ∧
        durationDate (months + Int32.ofInt v.1) (days + Int32.ofInt v.2) [] cs = .ok r := by
  have hnot : ¬ (ch.isDigit || ch == '-') = true := by
    rw [show (ch.isDigit || ch == '-') = inDateNumber ch from rfl, hch]
    exact Bool.false_ne_true
  rw [durationDate, if_neg hnot]
  unfold parseI32 dateValue
  rw [parseInt_eq (plus_notMem (by decide) hbuffer)]
  cases hn : (numberValue buffer).filter fun n => decide (-2 ^ 31 ≤ n ∧ n ≤ 2 ^ 31 - 1) with
  | none => simp
  | some n =>
    have hzero : ∀ x : Int32, x + Int32.ofInt 0 = x := Int32.add_zero
    simp only [Option.map_some, Option.bind_eq_bind, Option.bind_some]
    split
    · simp only [Option.some.injEq, exists_eq_left', ofInt32_mul, hzero]
      rfl
    · simp only [Option.some.injEq, exists_eq_left', hzero]
    · simp only [Option.some.injEq, exists_eq_left', hzero]
    · simp only [Option.some.injEq, exists_eq_left', ofInt32_mul, hzero]
      rfl
    · simp

theorem foldl_addDate (months days : Int32) (values : List (Int × Int)) :
    values.foldl (fun (r : Int32 × Int32) v => (r.1 + Int32.ofInt v.1, r.2 + Int32.ofInt v.2))
        (months, days) =
      (months + Int32.ofInt (values.map Prod.fst).sum, days + Int32.ofInt (values.map Prod.snd).sum) := by
  induction values generalizing months days with
  | nil => exact Prod.ext (Int32.add_zero _).symm (Int32.add_zero _).symm
  | cons v values ih =>
    rw [List.foldl_cons, ih, List.map_cons, List.map_cons, List.sum_cons, List.sum_cons,
      Int32.ofInt_add, Int32.ofInt_add, Int32.add_assoc, Int32.add_assoc]

theorem durationDate_eq_ok_iff {cs : List Char} {r : Int32 × Int32} :
    durationDate 0 0 [] cs = .ok r ↔
      ∃ values, Means dateValue (Segments.cut inDateNumber [] cs).1 values ∧
        (Int32.ofInt (values.map Prod.fst).sum, Int32.ofInt (values.map Prod.snd).sum) = r := by
  have hread := Segments.read_eq_ok_iff
    (fun (s : Int32 × Int32) buffer cs => durationDate s.1 s.2 buffer cs) dateValue
    (fun r v => (r.1 + Int32.ofInt v.1, r.2 + Int32.ofInt v.2)) (p := inDateNumber)
    (q := fun _ => True) (s := (0, 0)) (r := r) (fun _ _ => rfl)
    (fun s buffer a as ha => by rw [durationDate]; exact if_pos ha)
    (fun s buffer a as r hbuffer ha _ => durationDate_unit hbuffer ha)
    (fun _ hb => absurd hb List.not_mem_nil) (fun ch (_ : ch ∈ cs) => trivial)
  simpa only [foldl_addDate, Int32.zero_add] using hread

/-! ## The time part -/

theorem ofInt64_mul (k : Int) (n : Int) : Int64.ofInt (k * n) = Int64.ofInt n * Int64.ofInt k := by
  rw [Int64.ofInt_mul, Int64.mul_comm]

/-- A unit closes a pair, whose value is added to the nanoseconds. -/
theorem durationTime_unit {nanos : Int64} {buffer cs : List Char} {ch : Char}
    (hbuffer : ∀ c ∈ buffer, inTimeNumber c) (hch : inTimeNumber ch = false) (hS : ch ≠ 'S')
    {r : Int64} : durationTime nanos buffer (ch :: cs) = .ok r ↔
      ∃ v, timeValue (buffer, ch) = some v ∧ durationTime (nanos + Int64.ofInt v) [] cs = .ok r := by
  have hnot : ¬ (ch.isDigit || ch == '.' || ch == '-') = true := by
    rw [show (ch.isDigit || ch == '.' || ch == '-') = inTimeNumber ch from rfl, hch]
    exact Bool.false_ne_true
  rw [durationTime.eq_def nanos buffer (ch :: cs)]
  simp only [if_neg hnot]
  unfold parseI64 timeValue
  rw [parseInt_eq (plus_notMem (by decide) hbuffer)]
  cases hn : (numberValue buffer).filter fun n => decide (-2 ^ 63 ≤ n ∧ n ≤ 2 ^ 63 - 1) with
  | none =>
    simp only [Option.map_none, Option.bind_eq_bind, Option.bind_none]
    split <;> simp_all
  | some n =>
    simp only [Option.map_some, Option.bind_eq_bind, Option.bind_some]
    split
    · simp only [Option.some.injEq, exists_eq_left', ofInt64_mul]
      rfl
    · simp only [Option.some.injEq, exists_eq_left', ofInt64_mul]
      rfl
    · exact absurd rfl hS
    · simp

theorem foldl_addTime (nanos : Int64) (values : List Int) :
    values.foldl (fun r v => r + Int64.ofInt v) nanos = nanos + Int64.ofInt values.sum := by
  induction values generalizing nanos with
  | nil => exact (Int64.add_zero _).symm
  | cons v values ih =>
    rw [List.foldl_cons, ih, List.sum_cons, Int64.ofInt_add, Int64.add_assoc]

theorem durationTime_eq_ok_iff {cs : List Char} (hS : 'S' ∉ cs) {r : Int64} :
    durationTime 0 [] cs = .ok r ↔
      ∃ nanos, Means timeValue (Segments.cut inTimeNumber [] cs).1 nanos ∧
        Int64.ofInt nanos.sum = r := by
  have hread := Segments.read_eq_ok_iff durationTime timeValue (fun r v => r + Int64.ofInt v)
    (p := inTimeNumber) (q := fun ch => ch ≠ 'S') (s := 0) (r := r) (fun _ _ => rfl)
    (fun s buffer a as ha => by rw [durationTime.eq_def]; exact if_pos ha)
    (fun s buffer a as r hbuffer ha hne => durationTime_unit hbuffer ha hne)
    (fun _ hb => absurd hb List.not_mem_nil) (fun ch (hch : ch ∈ cs) heq => hS (heq ▸ hch))
  simpa only [foldl_addTime, Int64.zero_add] using hread

/-! ## A whole duration -/

/-- What is accepted, and for which duration: the sums are taken modulo the width. -/
theorem parseIsoDuration_eq_ok_iff {s : String} (hS : 'S' ∉ timePart s) {d : Duration} :
    parseIsoDuration s = .ok d ↔ (trim s.toList).head? = some 'P' ∧
      ∃ values nanos, Means dateValue (datePairs s).1 values ∧ Means timeValue (timePairs s).1 nanos ∧
        d = ⟨Int32.ofInt (values.map Prod.fst).sum, Int32.ofInt (values.map Prod.snd).sum,
          Int64.ofInt nanos.sum⟩ := by
  unfold timePart at hS
  unfold parseIsoDuration datePairs timePairs datePart timePart
  cases htrim : trim s.toList with
  | nil => simp
  | cons c rest =>
    by_cases hP : c = 'P'
    · subst hP
      rw [htrim, List.drop_succ_cons, List.drop_zero] at hS
      simp only [Except.bind_eq_ok, Except.pure_eq_ok, durationDate_eq_ok_iff,
        durationTime_eq_ok_iff hS, List.head?_cons, List.drop_succ_cons, List.drop_zero, true_and]
      constructor
      · rintro ⟨_, ⟨values, hvalues, rfl⟩, _, ⟨nanos, hnanos, rfl⟩, rfl⟩
        exact ⟨values, nanos, hvalues, hnanos, rfl⟩
      · rintro ⟨values, nanos, hvalues, hnanos, rfl⟩
        exact ⟨_, ⟨values, hvalues, rfl⟩, _, ⟨nanos, hnanos, rfl⟩, rfl⟩
    · simp [hP]

theorem Means.unique {α : Type} {value : NumberUnit → Option α} {pairs : List NumberUnit}
    {values values' : List α} (h : Means value pairs values) (h' : Means value pairs values') :
    values = values' := by
  apply List.right_unique_forall₂' _ h h'
  intro pair v v' hv hv'
  exact Option.some.inj (hv.symm.trans hv')

/-- A pair of the date part is a number and one of four units. -/
theorem closed_of_dateValue {pair : NumberUnit} {v : Int × Int} (h : dateValue pair = some v) :
    (∀ c ∈ pair.1, inDateNumber c) ∧ inDateNumber pair.2 = false ∧ pair.2 ≠ 'T' := by
  obtain ⟨n, hn, hunit⟩ := Option.bind_eq_some_iff.mp h
  refine ⟨all_of_numberValue (Option.filter_eq_some_iff.mp hn).1, ?_⟩
  split at hunit
  · next hY => exact hY ▸ by decide
  · next hM => exact hM ▸ by decide
  · next hD => exact hD ▸ by decide
  · next hW => exact hW ▸ by decide
  · cases hunit

theorem closed_of_timeValue {pair : NumberUnit} {v : Int} (h : timeValue pair = some v) :
    (∀ c ∈ pair.1, inTimeNumber c) ∧ inTimeNumber pair.2 = false := by
  obtain ⟨n, hn, hunit⟩ := Option.bind_eq_some_iff.mp h
  refine ⟨?_, ?_⟩
  · intro c hc
    have hdate := all_of_numberValue (Option.filter_eq_some_iff.mp hn).1 c hc
    unfold inDateNumber at hdate
    unfold inTimeNumber
    cases hdigit : c.isDigit <;> simp_all
  · split at hunit
    · next hH => exact hH ▸ by decide
    · next hM => exact hM ▸ by decide
    · cases hunit

theorem Means.closed {α : Type} {value : NumberUnit → Option α} {P : NumberUnit → Prop}
    {pairs : List NumberUnit} {values : List α} (h : Means value pairs values)
    (hP : ∀ pair v, value pair = some v → P pair) : ∀ pair ∈ pairs, P pair := by
  induction h with
  | nil => exact fun pair hpair => absurd hpair List.not_mem_nil
  | cons hv _ ih =>
    intro pair hpair
    rcases List.mem_cons.mp hpair with rfl | hmem
    · exact hP _ _ hv
    · exact ih pair hmem

/-- The pairs that a text is written with are those that the reader cuts. -/
theorem Writes.pairs {s : String} {date time : List NumberUnit} {values : List (Int × Int)}
    {nanos : List Int} (h : Writes (trim s.toList) date time) (hvalues : Means dateValue date values)
    (hnanos : Means timeValue time nanos) : datePairs s = (date, []) ∧ timePairs s = (time, []) := by
  have hdate := hvalues.closed fun _ _ => closed_of_dateValue
  have htime := hnanos.closed fun _ _ => closed_of_timeValue
  -- No `T` in the date part.
  have hT : ∀ c ∈ Segments.join date, (c != 'T') = true := by
    intro c hc
    obtain ⟨pair, hpair, hmem⟩ := List.mem_flatMap.mp hc
    obtain ⟨hnumber, -, hunit⟩ := hdate pair hpair
    rcases List.mem_append.mp hmem with hc | hc
    · have hin := hnumber c hc
      simp only [bne_iff_ne, ne_eq]
      rintro rfl
      exact absurd hin (by decide)
    · simpa [List.mem_singleton.mp hc] using hunit
  have hparts : datePart s = Segments.join date ∧ timePart s = Segments.join time := by
    unfold datePart timePart
    rcases h with ⟨htrim, rfl⟩ | htrim
    · rw [htrim, List.drop_succ_cons, List.drop_zero, List.takeWhile_eq_self_iff.mpr hT,
        List.dropWhile_eq_nil_iff.mpr hT]
      exact ⟨rfl, rfl⟩
    · rw [htrim, List.drop_succ_cons, List.drop_zero, List.takeWhile_append_of_pos hT,
        List.dropWhile_append_of_pos hT]
      simp
  unfold datePairs timePairs
  rw [hparts.1, hparts.2]
  exact ⟨Segments.cut_join fun pair hpair => ⟨(hdate pair hpair).1, (hdate pair hpair).2.1⟩,
    Segments.cut_join htime⟩

/-- A text whose parts are closed is written with the pairs that the reader cuts. -/
theorem writes_pairs {s : String} (hP : (trim s.toList).head? = some 'P')
    (hdate : (datePairs s).2 = []) (htime : (timePairs s).2 = []) :
    Writes (trim s.toList) (datePairs s).1 (timePairs s).1 := by
  have hdateText := Segments.join_cut (p := inDateNumber) [] (datePart s)
  have htimeText := Segments.join_cut (p := inTimeNumber) [] (timePart s)
  rw [show Segments.cut inDateNumber [] (datePart s) = datePairs s from rfl, hdate, List.append_nil,
    List.nil_append] at hdateText
  rw [show Segments.cut inTimeNumber [] (timePart s) = timePairs s from rfl, htime, List.append_nil,
    List.nil_append] at htimeText
  unfold Writes
  rw [hdateText, htimeText]
  cases htrim : trim s.toList with
  | nil =>
    rw [htrim] at hP
    cases hP
  | cons c rest =>
    obtain rfl : c = 'P' := by simpa [htrim] using hP
    have hsplit : rest.takeWhile (· != 'T') ++ rest.dropWhile (· != 'T') = rest :=
      List.takeWhile_append_dropWhile
    have hdatePart : datePart s = rest.takeWhile (· != 'T') := by simp [datePart, htrim]
    have htimePart : timePart s = (rest.dropWhile (· != 'T')).drop 1 := by simp [timePart, htrim]
    cases hdrop : rest.dropWhile (· != 'T') with
    | nil =>
      left
      rw [hdrop, List.append_nil] at hsplit
      rw [hdrop, List.drop_nil] at htimePart
      rw [hdatePart, hsplit, timePairs, htimePart]
      exact ⟨rfl, rfl⟩
    | cons t time =>
      right
      obtain rfl : t = 'T' := by
        have hhead := List.head?_dropWhile_not (· != 'T') rest
        rw [hdrop] at hhead
        simpa using hhead
      rw [hdrop] at hsplit htimePart
      rw [hdatePart, htimePart, List.drop_succ_cons, List.drop_zero, hsplit]

/-- **Durations are read exactly, unless something is left over or does not fit.** A text without a
seconds component that is accepted consists of number-unit pairs and is read as their exact sums, if
and only if the parts of the text end with a unit and the sums fit, where all of its pairs can be
read. -/
theorem exactDuration_iff {s : String} (hS : 'S' ∉ timePart s) :
    ReadsExactly s ↔ ClosedAndFits s := by
  constructor
  · intro h hP values nanos hvalues hnanos
    obtain ⟨date, time, values', nanos', hwrites, hvalues', hnanos', hmonths, hdays, hns⟩ :=
      h _ ((parseIsoDuration_eq_ok_iff hS).mpr ⟨hP, values, nanos, hvalues, hnanos, rfl⟩)
    obtain ⟨hdate, htime⟩ := hwrites.pairs hvalues' hnanos'
    rw [hdate] at hvalues
    rw [htime] at hnanos
    obtain rfl := hvalues.unique hvalues'
    obtain rfl := hnanos.unique hnanos'
    rw [hdate, htime, ← hmonths, ← hdays, ← hns]
    exact ⟨rfl, rfl, ⟨Int32.le_toInt _, Int32.toInt_lt _⟩, ⟨Int32.le_toInt _, Int32.toInt_lt _⟩,
      Int64.le_toInt _, Int64.toInt_lt _⟩
  · intro h d hd
    obtain ⟨hP, values, nanos, hvalues, hnanos, rfl⟩ := (parseIsoDuration_eq_ok_iff hS).mp hd
    obtain ⟨hdate, htime, hmonths, hdays, hns⟩ := h hP values nanos hvalues hnanos
    refine ⟨_, _, values, nanos, writes_pairs hP hdate htime, hvalues, hnanos, ?_, ?_, ?_⟩
    · exact Int32.toInt_ofInt_of_le hmonths.1 hmonths.2
    · exact Int32.toInt_ofInt_of_le hdays.1 hdays.2
    · exact Int64.toInt_ofInt_of_le hns.1 hns.2

/-- A duration with both parts is read exactly. -/
theorem exactDuration_iff_bothParts :
    'S' ∉ timePart "P1Y2M3DT4H5M" ∧ (ReadsExactly "P1Y2M3DT4H5M" ↔ ClosedAndFits "P1Y2M3DT4H5M") :=
  ⟨by decide, exactDuration_iff (by decide)⟩

/-! ## Two durations that are not read exactly -/

/-- A number without a unit is dropped, and too many years wrap around to a negative number of
months. -/
theorem not_readsExactly : ¬ ReadsExactly "P5" ∧ ¬ ReadsExactly "P178956971Y" := by
  constructor
  · intro h
    obtain ⟨date, time, values, nanos, hwrites, hvalues, hnanos, -⟩ := h ⟨0, 0, 0⟩ (by decide)
    have hleft : (datePairs "P5").2 = [] := congrArg Prod.snd (hwrites.pairs hvalues hnanos).1
    exact absurd hleft (by decide)
  · intro h
    obtain ⟨date, time, values, nanos, hwrites, hvalues, hnanos, hmonths, -⟩ :=
      h ⟨-2147483644, 0, 0⟩ (by decide)
    have hpairs := congrArg Prod.fst (hwrites.pairs hvalues hnanos).1
    have hcut : (datePairs "P178956971Y").1 = [("178956971".toList, 'Y')] := by decide
    obtain rfl : [("178956971".toList, 'Y')] = date := hcut.symm.trans hpairs
    obtain rfl : [(2147483652, 0)] = values := by
      apply Means.unique _ hvalues
      exact .cons (by decide) .nil
    exact absurd hmonths (by decide)

end Synaptica.Exec
