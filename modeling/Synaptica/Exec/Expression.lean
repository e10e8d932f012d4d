import Synaptica.Core.Float
import Synaptica.Gql.Ast
import Synaptica.Storage.Index

/-!
# Expressions

`synaptica_exec::expression` and the rows it reads. Expressions are evaluated against one record;
the arithmetic is that of the release profile, where integer operations wrap and only a division
that has no result panics (which `eval_arithmetic` catches).
-/

namespace Synaptica.Exec

open Gql

/-! ## Errors and rows -/

inductive ExecError where
  | notImplemented (msg : String)
  | storageError (msg : String)
  | typeError (msg : String)
  | expressionError (msg : String)
  | internal (msg : String)
  deriving DecidableEq, Repr

/-- A single record (row) produced by query execution. -/
structure Record where
  columns : List String
  values : List Value
  deriving DecidableEq

/-- Look up a value by column name. Rows are as wide as their columns. -/
def Record.get (r : Record) (name : String) : Option Value :=
  (r.columns.idxOf? name).bind fun i => r.values[i]?

/-- A set of records returned from query execution. -/
structure ResultSet where
  columns : List String
  records : List Record
  deriving DecidableEq

namespace ResultSet

/-- `ResultSet::new`, then `add_record` for each list of values. -/
def ofRows (columns : List String) (rows : List (List Value)) : ResultSet :=
  ⟨columns, rows.map fun values => ⟨columns, values⟩⟩

def columnIndex (rs : ResultSet) (name : String) : Option Nat := rs.columns.idxOf? name

end ResultSet

/-! ## What comes from outside the repository -/

/-- `chrono`'s `parse_from_str`, with the format as its second argument. -/
structure ChronoFormats where
  parseDate : String → String → Except String NaiveDate
  parseTime : String → String → Except String NaiveTime
  parseDateTime : String → String → Except String NaiveDateTime

structure Env where
  rt : Storage.Runtime
  chrono : ChronoFormats
  debug : DebugFormats
  /-- `Uuid::parse_str`. -/
  parseUuid : String → Except String Uuid
  /-- `GraphId::from_name`, a version 5 UUID. -/
  graphIdFromName : String → GraphId

variable (env : Env)

/-! ## Operators -/

/-- `Debug for Discriminant`. -/
def discriminant (n : Nat) : String := "Discriminant(" ++ toString n ++ ")"

mutual

/-- `eval_literal`. -/
def evalLiteral : Literal → Except ExecError Value
  | .integer i => .ok (.integer i)
  | .float f => .ok (.float f)
  | .string s => .ok (.string s)
  | .bool b => .ok (.bool b)
  | .null => .ok .null
  | .list items => do
    let vs ← evalLiterals items
    pure (.list vs)
  | .map entries => do
    let m ← evalLiteralEntries ∅ entries
    pure (.map m.toList)
  | .date _ => .error (.notImplemented ("literal: " ++ discriminant 5))
  | .time _ => .error (.notImplemented ("literal: " ++ discriminant 6))
  | .timestamp _ => .error (.notImplemented ("literal: " ++ discriminant 7))
  | .duration _ => .error (.notImplemented ("literal: " ++ discriminant 8))

def evalLiterals : List Literal → Except ExecError (List Value)
  | [] => .ok []
  | lit :: lits => do
    let v ← evalLiteral lit
    let vs ← evalLiterals lits
    pure (v :: vs)

def evalLiteralEntries (m : Properties) : List (String × Literal) → Except ExecError Properties
  | [] => .ok m
  | (k, lit) :: entries => do
    let v ← evalLiteral lit
    evalLiteralEntries (m.insert k v) entries

end

/-- The order `eval_comparison` compares by: none where the operands have no order, an error where
they have no comparison. -/
def comparisonOrder (lv rv : Value) : Except ExecError (Option Ordering) :=
  match lv, rv with
  | .integer a, .integer b => .ok (some (compare a b))
  | .float a, .float b => .ok (F64.partialCmp a b)
  | .integer a, .float b => .ok (F64.partialCmp (F64.ofInt64 a) b)
  | .float a, .integer b => .ok (F64.partialCmp a (F64.ofInt64 b))
  | .string a, .string b => .ok (some (compare a b))
  | .null, _ | _, .null => .ok none
  | _, _ => .error (.typeError ("cannot compare " ++ lv.typeName ++ " and " ++ rv.typeName))

/-- `eval_comparison`, for the four ordering operators by the orderings they accept. -/
def evalComparison (lv rv : Value) (accepts : Ordering → Bool) : Except ExecError Value := do
  let ord ← comparisonOrder lv rv
  match ord with
  | some o => pure (.bool (accepts o))
  | none => pure .null

/-- `eval_arithmetic`: the integer operation has no result where the native one panics. -/
def evalArithmetic (lv rv : Value) (intOp : Int64 → Int64 → Option Int64)
    (floatOp : UInt64 → UInt64 → UInt64) : Except ExecError Value :=
  match lv, rv with
  | .integer a, .integer b =>
    match intOp a b with
    | some n => .ok (.integer n)
    | none => .error (.expressionError "integer arithmetic overflow")
  | .float a, .float b => .ok (.float (floatOp a b))
  | .integer a, .float b => .ok (.float (floatOp (F64.ofInt64 a) b))
  | .float a, .integer b => .ok (.float (floatOp a (F64.ofInt64 b)))
  | _, _ => .error (.typeError
      ("cannot perform arithmetic on " ++ lv.typeName ++ " and " ++ rv.typeName))

/-- Native `/` and `%` panic on `i64::MIN` by -1 in every profile. -/
def checkedDivision (op : Int64 → Int64 → Int64) (a b : Int64) : Option Int64 :=
  if a = Int64.minValue ∧ b = -1 then none else some (op a b)

/-- A zero divisor, integer or float. -/
def isZero : Value → Bool
  | .integer i => i == 0
  | .float f => F64.eq f 0
  | _ => false

/-- `eval_binary_op`. -/
def evalBinaryOp (lv : Value) (op : BinaryOp) (rv : Value) : Except ExecError Value :=
  match op with
  | .eq => .ok (.bool (lv.partialEq rv))
  | .neq => .ok (.bool (!lv.partialEq rv))
  | .lt => evalComparison lv rv (· == .lt)
  | .gt => evalComparison lv rv (· == .gt)
  | .le => evalComparison lv rv (· != .gt)
  | .ge => evalComparison lv rv (· != .lt)
  | .add => evalArithmetic lv rv (fun a b => some (a + b)) F64.add
  | .sub => evalArithmetic lv rv (fun a b => some (a - b)) F64.sub
  | .mul => evalArithmetic lv rv (fun a b => some (a * b)) F64.mul
  | .div =>
    if isZero rv then .error (.expressionError "division by zero")
    else evalArithmetic lv rv (checkedDivision (· / ·)) F64.div
  | .mod =>
    if isZero rv then .error (.expressionError "modulo by zero")
    else evalArithmetic lv rv (checkedDivision (· % ·)) F64.rem
  | .and =>
    match lv, rv with
    | .bool false, _ | _, .bool false => .ok (.bool false)
    | .bool true, .bool true => .ok (.bool true)
    | _, _ => .ok .null
  | .or =>
    match lv, rv with
    | .bool true, _ | _, .bool true => .ok (.bool true)
    | .bool false, .bool false => .ok (.bool false)
    | _, _ => .ok .null
  | .xor =>
    match lv, rv with
    | .bool a, .bool b => .ok (.bool (a ^^ b))
    | _, _ => .ok .null
  | .concat =>
    match lv, rv with
    | .string a, .string b => .ok (.string (a ++ b))
    | .list a, .list b => .ok (.list (a ++ b))
    | _, _ => .error (.typeError ("cannot concatenate " ++ lv.typeName ++ " and " ++ rv.typeName))

/-- `eval_unary_op`. -/
def evalUnaryOp (op : UnaryOp) (v : Value) : Except ExecError Value :=
  match op, v with
  | .not, .bool b => .ok (.bool !b)
  | .not, .null => .ok .null
  | .not, _ => .error (.typeError ("NOT requires boolean, got " ++ v.typeName))
  | .neg, .integer i =>
    if i = Int64.minValue then .error (.expressionError "integer overflow in negation")
    else .ok (.integer (-i))
  | .neg, .float f => .ok (.float (F64.neg f))
  | .neg, .null => .ok .null
  | .neg, _ => .error (.typeError ("cannot negate " ++ v.typeName))
  | .pos, .integer _ | .pos, .float _ | .pos, .null => .ok v
  | .pos, _ => .error (.typeError ("cannot apply unary + to " ++ v.typeName))

/-! ## Functions -/

/-- The date part of a duration: months and days so far, and the digits of the number being read. -/
def durationDate (months days : Int32) (numBuf : List Char) : List Char →
    Except String (Int32 × Int32)
  | [] => .ok (months, days)
  | ch :: chs =>
    if ch.isDigit || ch == '-' then durationDate months days (numBuf ++ [ch]) chs
    else
      match parseI32 (String.ofList numBuf) with
      | none => .error ("invalid number in duration: " ++ String.ofList numBuf)
      | some n =>
        match ch with
        | 'Y' => durationDate (months + n * 12) days [] chs
        | 'M' => durationDate (months + n) days [] chs
        | 'D' => durationDate months (days + n) [] chs
        | 'W' => durationDate months (days + n * 7) [] chs
        | _ => .error ("unexpected char '" ++ String.ofList [ch] ++ "' in duration date part")

/-- The time part of a duration. -/
def durationTime (nanos : Int64) (numBuf : List Char) : List Char → Except String Int64
  | [] => .ok nanos
  | ch :: chs =>
    if ch.isDigit || ch == '.' || ch == '-' then durationTime nanos (numBuf ++ [ch]) chs
    else
      match ch with
      | 'H' =>
        match parseI64 (String.ofList numBuf) with
        | some n => durationTime (nanos + n * 3600000000000) [] chs
        | none => .error ("invalid hours: " ++ String.ofList numBuf)
      | 'M' =>
        match parseI64 (String.ofList numBuf) with
        | some n => durationTime (nanos + n * 60000000000) [] chs
        | none => .error ("invalid minutes: " ++ String.ofList numBuf)
      | 'S' =>
        match parseF64 (String.ofList numBuf) with
        | some n => durationTime (nanos + F64.toInt64 (F64.mul n (1000000000.0 : Float).toBits)) [] chs
        | none => .error ("invalid seconds: " ++ String.ofList numBuf)
      | _ => .error ("unexpected char '" ++ String.ofList [ch] ++ "' in duration time part")

/-- `char::is_whitespace`: the characters with the `White_Space` property. -/
def isWhitespace (c : Char) : Bool :=
  c.toNat ∈ [0x20, 0x85, 0xA0, 0x1680, 0x2028, 0x2029, 0x202F, 0x205F, 0x3000] ||
    (9 ≤ c.toNat && c.toNat ≤ 13) || (0x2000 ≤ c.toNat && c.toNat ≤ 0x200A)

/-- `str::trim`. -/
def trim (cs : List Char) : List Char :=
  ((cs.dropWhile isWhitespace).reverse.dropWhile isWhitespace).reverse

/-- Parse an ISO 8601 duration string like "P1Y2M3DT4H5M6S" into a Duration. -/
def parseIsoDuration (s : String) : Except String Duration :=
  match trim s.toList with
  | 'P' :: rest => do
    let (months, days) ← durationDate 0 0 [] (rest.takeWhile (· != 'T'))
    let nanos ← durationTime 0 [] ((rest.dropWhile (· != 'T')).drop 1)
    pure ⟨months, days, nanos⟩
  | _ => .error "duration must start with 'P'"

/-- Try the formats in order; the error is that of the last one. -/
def parseWithFormats {α : Type} (parse : String → String → Except String α) (s : String) :
    String → List String → Except String α
  | format, [] => parse s format
  | format, next :: formats =>
    match parse s format with
    | .ok a => .ok a
    | .error _ => parseWithFormats parse s next formats

/-- The temporal functions: they read a string and pass NULL through. -/
def evalTemporal {α : Type} (function kind : String) (parse : String → Except String α)
    (wrap : α → Value) (v : Value) : Except ExecError Value :=
  match v with
  | .string s =>
    match parse s with
    | .ok a => .ok (wrap a)
    | .error e => .error (.typeError ("invalid " ++ kind ++ " '" ++ s ++ "': " ++ e))
  | .null => .ok .null
  | _ => .error (.typeError (function ++ "() expects a string, got " ++ v.typeName))

/-- `eval_function`. -/
def evalFunction (name : String) (args : List Value) : Except ExecError Value :=
  let v := args.head?.getD .null
  match env.rt.toLowercase name with
  | "tostring" => .ok (.string (v.display env.rt.formats))
  | "tointeger" =>
    match v with
    | .integer i => .ok (.integer i)
    | .float f => .ok (.integer (F64.toInt64 f))
    | .string s =>
      match parseI64 s with
      | some n => .ok (.integer n)
      | none => .error (.typeError ("cannot convert '" ++ s ++ "' to integer"))
    | .bool b => .ok (.integer (if b then 1 else 0))
    | .null => .ok .null
    | _ => .error (.typeError ("cannot convert " ++ v.typeName ++ " to integer"))
  | "tofloat" =>
    match v with
    | .float f => .ok (.float f)
    | .integer i => .ok (.float (F64.ofInt64 i))
    | .string s =>
      match parseF64 s with
      | some f => .ok (.float f)
      | none => .error (.typeError ("cannot convert '" ++ s ++ "' to float"))
    | .null => .ok .null
    | _ => .error (.typeError ("cannot convert " ++ v.typeName ++ " to float"))
  | "size" =>
    match v with
    | .string s => .ok (.integer (Int64.ofNat s.length))
    | .list l => .ok (.integer (Int64.ofNat l.length))
    | .map m => .ok (.integer (Int64.ofNat m.length))
    | .null => .ok .null
    | _ => .error (.typeError ("size() not supported for " ++ v.typeName))
  | "keys" =>
    match v with
    | .map m => .ok (.list (m.map fun e => .string e.1))
    | .node _ _ properties => .ok (.list (properties.map fun e => .string e.1))
    | .null => .ok .null
    | _ => .error (.typeError ("keys() not supported for " ++ v.typeName))
  | "labels" =>
    match v with
    | .node _ labels _ => .ok (.list (labels.map .string))
    | .list l => .ok (.list l)
    | .null => .ok .null
    | _ => .ok (.list [])
  | "type" =>
    match v with
    | .edge _ label _ _ _ => .ok (.string label)
    | _ => .ok (.string v.typeName)
  | "id" => .ok v
  | "date" =>
    evalTemporal "DATE" "date" (fun s => env.chrono.parseDate s "%Y-%m-%d") .date v
  | "time" =>
    evalTemporal "TIME" "time"
      (fun s => parseWithFormats env.chrono.parseTime s "%H:%M:%S" ["%H:%M"]) .time v
  | "datetime" | "timestamp" =>
    evalTemporal "DATETIME" "datetime"
      (fun s => parseWithFormats env.chrono.parseDateTime s "%Y-%m-%dT%H:%M:%S"
        ["%Y-%m-%d %H:%M:%S", "%Y-%m-%dT%H:%M"]) .timestamp v
  | "duration" => evalTemporal "DURATION" "duration" parseIsoDuration .duration v
  | _ => .error (.notImplemented ("function: " ++ name))

/-! ## Evaluation -/

/-- The property of a map, node or edge; NULL for anything else. -/
def propertyOf (v : Value) (property : String) : Value :=
  match v with
  | .map m => (m.lookup property).getD .null
  | .node _ _ properties => (properties.lookup property).getD .null
  | .edge _ _ _ _ properties => (properties.lookup property).getD .null
  | _ => .null

/-- The column of a property access on a variable: `var.property`, then the bare `property`. -/
def propertyColumn (context : Record) (object : Expression) (property : String) : Option Value :=
  match object with
  | .identifier var => (context.get (var ++ "." ++ property)).or (context.get property)
  | _ => none

def evalIn (val listVal : Value) : Except ExecError Value :=
  match listVal with
  | .list items => .ok (.bool (items.any fun item => item.partialEq val))
  | _ => .error (.typeError "IN requires a list")

/-- `AND` once both sides are known; a false left side has answered already. -/
def evalAnd (lv rv : Value) : Value :=
  if rv = .bool false then .bool false
  else if lv = .bool true ∧ rv = .bool true then .bool true
  else .null

/-- `OR` once both sides are known; a true left side has answered already. -/
def evalOr (lv rv : Value) : Value :=
  if rv = .bool true then .bool true
  else if lv = .bool false ∧ rv = .bool false then .bool false
  else .null

mutual

/-- Evaluate an expression against a record context. -/
def evaluate (context : Record) : Expression → Except ExecError Value
  | .literal lit => evalLiteral lit
  | .identifier name =>
    match context.get name with
    | some v => .ok v
    | none => .error (.expressionError ("unknown identifier: " ++ name))
  | .propertyAccess object property =>
    -- columns first, so that an unresolvable variable does not fail before them
    match propertyColumn context object property with
    | some v => .ok v
    | none => do
      let obj ← evaluate context object
      pure (propertyOf obj property)
  | .binaryOp left op right => do
    let lv ← evaluate context left
    match op with
    | .and =>
      if lv = .bool false then pure (.bool false)
      else do
        let rv ← evaluate context right
        pure (evalAnd lv rv)
    | .or =>
      if lv = .bool true then pure (.bool true)
      else do
        let rv ← evaluate context right
        pure (evalOr lv rv)
    | op => do
      let rv ← evaluate context right
      evalBinaryOp lv op rv
  | .unaryOp op operand => do
    let v ← evaluate context operand
    evalUnaryOp op v
  | .isNull inner => do
    let v ← evaluate context inner
    pure (.bool v.isNull)
  | .isNotNull inner => do
    let v ← evaluate context inner
    pure (.bool !v.isNull)
  | .inList operand list => do
    let val ← evaluate context operand
    let listVal ← evaluate context list
    evalIn val listVal
  | .functionCall name args => do
    let values ← evaluateAll context args
    evalFunction env name values
  | .aggregate function _ arg =>
    -- single-record evaluation of aggregates: just return the value
    match arg with
    | some inner => evaluate context inner
    | none => .ok (if function = .count then .integer 1 else .null)
  | .list exprs => do
    let values ← evaluateAll context exprs
    pure (.list values)
  | .map entries => do
    let m ← evaluateEntries context ∅ entries
    pure (.map m.toList)
  | .caseWhen operand whenClauses elseClause =>
    match operand with
    | some op => do
      let opVal ← evaluate context op
      match ← evaluateWhen context (fun w => opVal.partialEq w) whenClauses with
      | some v => pure v
      | none => evaluateElse context elseClause
    | none => do
      match ← evaluateWhen context (fun w => w == .bool true) whenClauses with
      | some v => pure v
      | none => evaluateElse context elseClause
  | .existsQuery => .error (.notImplemented ("expression: " ++ discriminant 7))
  | .parameter _ => .error (.notImplemented ("expression: " ++ discriminant 11))
  | .subquery => .error (.notImplemented ("expression: " ++ discriminant 12))
  | .like _ _ => .error (.notImplemented ("expression: " ++ discriminant 16))
  | .typeCast _ _ => .error (.notImplemented ("expression: " ++ discriminant 17))
  | .path => .error (.notImplemented ("expression: " ++ discriminant 18))

def evaluateAll (context : Record) : List Expression → Except ExecError (List Value)
  | [] => .ok []
  | expr :: exprs => do
    let v ← evaluate context expr
    let vs ← evaluateAll context exprs
    pure (v :: vs)

def evaluateEntries (context : Record) (m : Properties) :
    List (String × Expression) → Except ExecError Properties
  | [] => .ok m
  | (key, expr) :: entries => do
    let v ← evaluate context expr
    evaluateEntries context (m.insert key v) entries

/-- The arms of a `CASE` up to the first one that applies. -/
def evaluateWhen (context : Record) (applies : Value → Bool) :
    List (Expression × Expression) → Except ExecError (Option Value)
  | [] => .ok none
  | (whenExpr, thenExpr) :: clauses => do
    let w ← evaluate context whenExpr
    if applies w then do
      let v ← evaluate context thenExpr
      pure (some v)
    else evaluateWhen context applies clauses

def evaluateElse (context : Record) : Option Expression → Except ExecError Value
  | some expr => evaluate context expr
  | none => .ok .null

end

end Synaptica.Exec
