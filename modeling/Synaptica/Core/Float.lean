import Synaptica.Core.Value

/-!
# Numbers as the standard library computes and reads them

A float is kept as its bits, so each operation of `f64` goes through Lean's binary64. The remainder
is computed exactly: both operands are multiples of the least positive float, and so is the result.
-/

namespace Synaptica

namespace F64

def add (a b : UInt64) : UInt64 := (Float.ofBits a + Float.ofBits b).toBits
def sub (a b : UInt64) : UInt64 := (Float.ofBits a - Float.ofBits b).toBits
def mul (a b : UInt64) : UInt64 := (Float.ofBits a * Float.ofBits b).toBits
def div (a b : UInt64) : UInt64 := (Float.ofBits a / Float.ofBits b).toBits
def neg (a : UInt64) : UInt64 := (-Float.ofBits a).toBits

/-- `PartialEq for f64`. -/
def eq (a b : UInt64) : Bool := Float.ofBits a == Float.ofBits b

/-- `PartialOrd for f64`. -/
def partialCmp (a b : UInt64) : Option Ordering :=
  if Float.ofBits a < Float.ofBits b then some .lt
  else if Float.ofBits b < Float.ofBits a then some .gt
  else if F64.eq a b then some .eq
  else none

/-- `n as f64`, rounded to nearest. -/
def ofInt64 (n : Int64) : UInt64 :=
  let magnitude := (UInt64.ofNat n.toInt.natAbs).toFloat
  (if n < 0 then -magnitude else magnitude).toBits

/-- `f as i64`: towards zero, saturating, and 0 for a NaN. -/
def toInt64 (bits : UInt64) : Int64 :=
  let f := Float.ofBits bits
  if f.isNaN then 0
  else if f < 0 then Int64.ofInt (max (-2 ^ 63) (-((-f).toUInt64.toNat : Int)))
  else Int64.ofInt (min (2 ^ 63 - 1) (f.toUInt64.toNat : Int))

/-- The magnitude of a finite float, in units of the least positive one. -/
def units (bits : UInt64) : Nat :=
  let exponent := bits.toNat / 2 ^ 52 % 2 ^ 11
  let fraction := bits.toNat % 2 ^ 52
  if exponent = 0 then fraction else (2 ^ 52 + fraction) * 2 ^ (exponent - 1)

/-- The bits of a number of units with at most 53 significant bits. -/
def ofUnits (n : Nat) : Nat :=
  let shift := n.log2 - 52
  n / 2 ^ shift + shift * 2 ^ 52

/-- `a % b`: the sign of `a`, exact; a NaN when `a` is infinite or `b` is zero. -/
def rem (a b : UInt64) : UInt64 :=
  let x := Float.ofBits a
  let y := Float.ofBits b
  if x.isNaN || y.isNaN || x.isInf || y == 0 then (0 / 0 : Float).toBits
  else if y.isInf then a
  else UInt64.ofNat (ofUnits (units a % units b) + if a < 0x8000000000000000 then 0 else 2 ^ 63)

end F64

/-! ## Reading numbers -/

/-- A non-empty list of decimal digits. -/
def readDigits (cs : List Char) : Option Nat :=
  if cs.isEmpty || !cs.all Char.isDigit then none
  else some (cs.foldl (fun n c => 10 * n + (c.toNat - '0'.toNat)) 0)

/-- `str::parse` of a signed integer between the two bounds. -/
def parseInt (lo hi : Int) (s : String) : Option Int :=
  let number : Option Int :=
    match s.toList with
    | '-' :: ds => (readDigits ds).map fun n => -(n : Int)
    | '+' :: ds => (readDigits ds).map Int.ofNat
    | ds => (readDigits ds).map Int.ofNat
  number.filter fun n => decide (lo ≤ n ∧ n ≤ hi)

/-- `str::parse::<i64>`. -/
def parseI64 (s : String) : Option Int64 := (parseInt (-2 ^ 63) (2 ^ 63 - 1) s).map Int64.ofInt

/-- `str::parse::<i32>`. -/
def parseI32 (s : String) : Option Int32 := (parseInt (-2 ^ 31) (2 ^ 31 - 1) s).map Int32.ofInt

/-- The exponent after an `e`; no `e` is no exponent. -/
def readExponent : List Char → Option Int
  | [] => some 0
  | c :: cs => if c = 'e' ∨ c = 'E' then
      match cs with
      | '-' :: ds => (readDigits ds).map fun n => -(n : Int)
      | '+' :: ds => (readDigits ds).map Int.ofNat
      | ds => (readDigits ds).map Int.ofNat
    else none

/-- A decimal number without a sign: digits, a point with digits on at least one side of it, an
exponent. -/
def readDecimal (cs : List Char) : Option Float := do
  let whole := cs.takeWhile Char.isDigit
  let afterWhole := cs.dropWhile Char.isDigit
  let (fraction, tail) :=
    match afterWhole with
    | '.' :: ds => (ds.takeWhile Char.isDigit, ds.dropWhile Char.isDigit)
    | ds => ([], ds)
  let exponent ← readExponent tail
  let mantissa ← readDigits (whole ++ fraction)
  let scale := exponent - fraction.length
  pure (Float.ofScientific mantissa (decide (scale < 0)) scale.natAbs)

/-- `str::parse::<f64>`. -/
def parseF64 (s : String) : Option UInt64 :=
  let unsigned (cs : List Char) : Option Float :=
    match String.ofList (cs.map Char.toLower) with
    | "inf" | "infinity" => some (1 / 0)
    | "nan" => some (0 / 0)
    | _ => readDecimal cs
  let number :=
    match s.toList with
    | '-' :: cs => (unsigned cs).map fun f => -f
    | '+' :: cs => unsigned cs
    | cs => unsigned cs
  number.map Float.toBits

/-! ## Comparing and printing values -/

namespace Value

mutual

/-- `PartialEq for Value`: floats compare as numbers. -/
def partialEq : Value → Value → Bool
  | null, null => true
  | bool a, bool b => a == b
  | integer a, integer b => a == b
  | float a, float b => F64.eq a b
  | string a, string b => a == b
  | bytes a, bytes b => a == b
  | date a, date b => a == b
  | time a, time b => a == b
  | timestamp a, timestamp b => a == b
  | duration a, duration b => a == b
  | list a, list b => partialEqList a b
  | map a, map b => partialEqEntries a b
  | node i l p, node i' l' p' => i == i' && l == l' && partialEqEntries p p'
  | edge i l s t p, edge i' l' s' t' p' =>
    i == i' && l == l' && s == s' && t == t' && partialEqEntries p p'
  | _, _ => false

def partialEqList : List Value → List Value → Bool
  | [], [] => true
  | a :: as, b :: bs => partialEq a b && partialEqList as bs
  | _, _ => false

def partialEqEntries : List (String × Value) → List (String × Value) → Bool
  | [], [] => true
  | (k, a) :: as, (k', b) :: bs => k == k' && partialEq a b && partialEqEntries as bs
  | _, _ => false

end

theorem partialEq_bool (v : Value) (b : Bool) : partialEq v (.bool b) = true ↔ v = .bool b := by
  cases v <;> simp [partialEq]

theorem partialEq_null (v : Value) : partialEq v .null = true ↔ v = .null := by
  cases v <;> simp [partialEq]

/-- `Value::type_name`. -/
def typeName : Value → String
  | null => "NULL"
  | bool _ => "BOOLEAN"
  | integer _ => "INTEGER"
  | float _ => "FLOAT"
  | string _ => "STRING"
  | bytes _ => "BYTES"
  | date _ => "DATE"
  | time _ => "TIME"
  | timestamp _ => "TIMESTAMP"
  | duration _ => "DURATION"
  | list _ => "LIST"
  | map _ => "MAP"
  | node .. => "NODE"
  | edge .. => "EDGE"

/-- `Value::is_null`. -/
def isNull : Value → Bool
  | null => true
  | _ => false

/-- `Value::as_node_id`. -/
def asNodeId : Value → Option String
  | node id _ _ => some id
  | _ => none

/-- `Value::as_str`. -/
def asStr : Value → Option String
  | string s => some s
  | _ => none

end Value

/-- The `Debug` texts that come from outside the repository. -/
structure DebugFormats where
  float : UInt64 → String
  string : String → String
  date : NaiveDate → String
  time : NaiveTime → String
  timestamp : NaiveDateTime → String

namespace Value

mutual

/-- `fmt::Debug for Value`, as derived. -/
def debug (f : DebugFormats) : Value → String
  | null => "Null"
  | bool b => "Bool(" ++ (if b then "true" else "false") ++ ")"
  | integer i => "Integer(" ++ toString i ++ ")"
  | float bits => "Float(" ++ f.float bits ++ ")"
  | string s => "String(" ++ f.string s ++ ")"
  | bytes b => "Bytes([" ++ ", ".intercalate (b.map fun x => toString x.toNat) ++ "])"
  | date d => "Date(" ++ f.date d ++ ")"
  | time t => "Time(" ++ f.time t ++ ")"
  | timestamp ts => "Timestamp(" ++ f.timestamp ts ++ ")"
  | duration d =>
    "Duration(Duration \x7b months: " ++ toString d.months ++ ", days: " ++ toString d.days
      ++ ", nanos: " ++ toString d.nanos ++ " \x7d)"
  | list l => "List([" ++ ", ".intercalate (debugList f l) ++ "])"
  | map m => "Map(\x7b" ++ ", ".intercalate (debugEntries f m) ++ "\x7d)"
  | node id labels properties =>
    "Node \x7b id: " ++ f.string id ++ ", labels: [" ++ ", ".intercalate (labels.map f.string)
      ++ "], properties: \x7b" ++ ", ".intercalate (debugEntries f properties) ++ "\x7d \x7d"
  | edge id label sourceId targetId properties =>
    "Edge \x7b id: " ++ f.string id ++ ", label: " ++ f.string label ++ ", source_id: "
      ++ f.string sourceId ++ ", target_id: " ++ f.string targetId ++ ", properties: \x7b"
      ++ ", ".intercalate (debugEntries f properties) ++ "\x7d \x7d"

def debugList (f : DebugFormats) : List Value → List String
  | [] => []
  | v :: vs => debug f v :: debugList f vs

/-- One `key: value` text an entry. -/
def debugEntries (f : DebugFormats) : List (String × Value) → List String
  | [] => []
  | (k, v) :: es => (f.string k ++ ": " ++ debug f v) :: debugEntries f es

end

end Value

end Synaptica
