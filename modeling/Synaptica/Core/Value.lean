import Synaptica.Lib.OrderedMap

/-!
# Property values

`synaptica_core::types::Value`, the values a node or an edge carries. A float is kept as its IEEE 754
bits, since that is what the store writes and compares; dates and times are the numbers `chrono`
represents them by. The maps inside a value are lists of entries in key order.
-/

namespace Synaptica

/-- `chrono::NaiveDate`, as the days since the common era. -/
structure NaiveDate where
  days : Int32
  deriving DecidableEq, Repr

/-- `chrono::NaiveTime`. -/
structure NaiveTime where
  secs : UInt32
  frac : UInt32
  deriving DecidableEq, Repr

/-- `chrono::NaiveDateTime`. -/
structure NaiveDateTime where
  date : NaiveDate
  time : NaiveTime
  deriving DecidableEq, Repr

/-- ISO 8601 duration. -/
structure Duration where
  months : Int32
  days : Int32
  nanos : Int64
  deriving DecidableEq, Repr

inductive Value where
  | null
  | bool (b : Bool)
  | integer (i : Int64)
  | float (bits : UInt64)
  | string (s : String)
  | bytes (b : Bytes)
  | date (d : NaiveDate)
  | time (t : NaiveTime)
  | timestamp (ts : NaiveDateTime)
  | duration (d : Duration)
  | list (l : List Value)
  | map (m : List (String × Value))
  | node (id : String) (labels : List String) (properties : List (String × Value))
  | edge (id label sourceId targetId : String) (properties : List (String × Value))
  deriving Repr

namespace Value

/-! ## Deciding equality

The deriving handler does not reach through the nested lists, so the recursion is written out: one
function for a value, one for a list of values, one for the entries of a map. -/

mutual

/-- Equality of representations; a float is compared by its bits. -/
def same : Value → Value → Bool
  | null, null => true
  | bool a, bool b => a == b
  | integer a, integer b => a == b
  | float a, float b => a == b
  | string a, string b => a == b
  | bytes a, bytes b => a == b
  | date a, date b => a == b
  | time a, time b => a == b
  | timestamp a, timestamp b => a == b
  | duration a, duration b => a == b
  | list a, list b => sameList a b
  | map a, map b => sameEntries a b
  | node i l p, node i' l' p' => i == i' && l == l' && sameEntries p p'
  | edge i l s t p, edge i' l' s' t' p' =>
    i == i' && l == l' && s == s' && t == t' && sameEntries p p'
  | _, _ => false

def sameList : List Value → List Value → Bool
  | [], [] => true
  | a :: as, b :: bs => same a b && sameList as bs
  | _, _ => false

def sameEntries : List (String × Value) → List (String × Value) → Bool
  | [], [] => true
  | (k, a) :: as, (k', b) :: bs => k == k' && same a b && sameEntries as bs
  | _, _ => false

end

mutual

theorem same_iff : (a b : Value) → (same a b = true ↔ a = b)
  | list a, b => by cases b <;> simp [same, sameList_iff]
  | map a, b => by cases b <;> simp [same, sameEntries_iff]
  | node i l p, b => by cases b <;> simp [same, sameEntries_iff, and_assoc]
  | edge i l s t p, b => by cases b <;> simp [same, sameEntries_iff, and_assoc]
  | null, b | bool _, b | integer _, b | float _, b | string _, b | bytes _, b | date _, b
  | time _, b | timestamp _, b | duration _, b => by cases b <;> simp [same]

theorem sameList_iff : (a b : List Value) → (sameList a b = true ↔ a = b)
  | [], b => by cases b <;> simp [sameList]
  | a :: as, [] => by simp [sameList]
  | a :: as, b :: bs => by simp [sameList, same_iff, sameList_iff]

theorem sameEntries_iff : (a b : List (String × Value)) → (sameEntries a b = true ↔ a = b)
  | [], b => by cases b <;> simp [sameEntries]
  | a :: as, [] => by simp [sameEntries]
  | (k, a) :: as, (k', b) :: bs => by simp [sameEntries, same_iff, sameEntries_iff]

end

instance : DecidableEq Value := fun a b => decidable_of_iff _ (same_iff a b)

end Value

/-! ## Display -/

/-- Lower-case hexadecimal, two digits a byte. -/
def hexEncode (bytes : Bytes) : List Char :=
  bytes.flatMap fun b => [Nat.digitChar (b.toNat / 16), Nat.digitChar (b.toNat % 16)]

/-- `fmt::Display for Duration`. -/
def Duration.display (d : Duration) : String :=
  let pad (n : Nat) : String :=
    let digits := toString n
    String.ofList (List.replicate (9 - digits.length) '0') ++ digits
  let abs := d.nanos.toInt.natAbs
  let secs := abs / 1000000000
  let rem := abs % 1000000000
  let sign := if d.nanos < 0 then "-" else ""
  "P" ++ (if d.months ≠ 0 then toString d.months ++ "M" else "")
    ++ (if d.days ≠ 0 then toString d.days ++ "D" else "")
    ++ (if d.nanos ≠ 0 then
          if rem ≠ 0 then "T" ++ sign ++ toString secs ++ "." ++ pad rem ++ "S"
          else "T" ++ sign ++ toString secs ++ "S"
        else "")

/-- The texts that come from outside the repository: `f64` from the standard library, dates and
times from `chrono`. -/
structure Formats where
  float : UInt64 → String
  date : NaiveDate → String
  time : NaiveTime → String
  timestamp : NaiveDateTime → String

namespace Value

mutual

/-- `fmt::Display for Value`. -/
def display (f : Formats) : Value → String
  | null => "NULL"
  | bool b => if b then "true" else "false"
  | integer i => toString i
  | float bits => f.float bits
  | string s => "'" ++ s ++ "'"
  | bytes b => "X'" ++ String.ofList (hexEncode b) ++ "'"
  | date d => "DATE '" ++ f.date d ++ "'"
  | time t => "TIME '" ++ f.time t ++ "'"
  | timestamp ts => "TIMESTAMP '" ++ f.timestamp ts ++ "'"
  | duration d => "DURATION '" ++ d.display ++ "'"
  | list l => "[" ++ ", ".intercalate (displayList f l) ++ "]"
  | map m => "\x7b" ++ ", ".intercalate (displayEntries f m) ++ "\x7d"
  | node id labels properties =>
    let props := displayEntries f properties
    "(" ++ id ++ String.join (labels.map (":" ++ ·))
      ++ (if properties.isEmpty then "" else " \x7b" ++ ", ".intercalate props ++ "\x7d") ++ ")"
  | edge id label sourceId targetId properties =>
    let props := displayEntries f properties
    "(" ++ sourceId ++ ")-[:" ++ label
      ++ (if properties.isEmpty then "" else " \x7b" ++ ", ".intercalate props ++ "\x7d")
      ++ "]->(" ++ targetId ++ ")[" ++ id ++ "]"

def displayList (f : Formats) : List Value → List String
  | [] => []
  | v :: vs => display f v :: displayList f vs

/-- One `key: value` text an entry. -/
def displayEntries (f : Formats) : List (String × Value) → List String
  | [] => []
  | (k, v) :: es => (k ++ ": " ++ display f v) :: displayEntries f es

end

end Value

end Synaptica
