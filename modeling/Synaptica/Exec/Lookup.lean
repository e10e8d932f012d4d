import Synaptica.Exec.Columns
import Synaptica.Gql.Semantic
import Synaptica.Lib.Failures

/-!
# Which identifiers an evaluation looks up

An identifier is looked up among the columns of a row, and evaluation fails with `unknown identifier` when
none has its name. `resolves` is the check, over names of columns, that excludes this error on every row with
these columns.

* `evaluate_of_resolves` — an expression that resolves does not fail in this way.
* `resolves_of_checked` — what the analyzer adds to the check.
-/

namespace Synaptica.Exec

open Gql

/-! ## The error -/

def UnknownIdentifier (e : ExecError) : Prop := ∃ name, e = .expressionError ("unknown identifier: " ++ name)

/-- No error of a step is that of an unknown identifier. -/
abbrev Finds {α : Type} (r : Except ExecError α) : Prop := ∀ e, r = .error e → ¬ UnknownIdentifier e

section Steps

variable {α β : Type}

theorem finds_ok (a : α) : Finds (.ok a) := by
  intro e h
  cases h

theorem finds_notImplemented (msg : String) : Finds (.error (.notImplemented msg) : Except ExecError α) := by
  rintro e h ⟨name, he⟩
  cases h
  cases he

theorem finds_typeError (msg : String) : Finds (.error (.typeError msg) : Except ExecError α) := by
  rintro e h ⟨name, he⟩
  cases h
  cases he

/-- Another text is told apart by its first letters. -/
theorem finds_expressionError {msg : String} (hmsg : ¬ "unknown identifier: ".toList <+: msg.toList) :
    Finds (.error (.expressionError msg) : Except ExecError α) := by
  rintro e h ⟨name, he⟩
  cases h
  apply hmsg
  rw [ExecError.expressionError.inj he, String.toList_append]
  exact List.prefix_append _ _

theorem finds_bind {x : Except ExecError α} {f : α → Except ExecError β} (hx : Finds x)
    (hf : ∀ a, Finds (f a)) : Finds (x >>= f) :=
  Except.fails_bind hx fun a _ => hf a

end Steps

/-! ## Values -/

mutual

theorem finds_evalLiteral : (lit : Literal) → Finds (evalLiteral lit)
  | .integer _ | .float _ | .string _ | .bool _ | .null => by
    rw [evalLiteral]
    exact finds_ok _
  | .list items => by
    rw [evalLiteral]
    exact finds_bind (finds_evalLiterals items) fun _ => finds_ok _
  | .map entries => by
    rw [evalLiteral]
    exact finds_bind (finds_evalLiteralEntries ∅ entries) fun _ => finds_ok _
  | .date _ | .time _ | .timestamp _ | .duration _ => by
    rw [evalLiteral]
    exact finds_notImplemented _

theorem finds_evalLiterals : (lits : List Literal) → Finds (evalLiterals lits)
  | [] => by
    rw [evalLiterals]
    exact finds_ok _
  | lit :: lits => by
    rw [evalLiterals]
    exact finds_bind (finds_evalLiteral lit) fun _ => finds_bind (finds_evalLiterals lits) fun _ => finds_ok _

theorem finds_evalLiteralEntries (m : Properties) : (entries : List (String × Literal)) →
    Finds (evalLiteralEntries m entries)
  | [] => by
    rw [evalLiteralEntries]
    exact finds_ok _
  | (k, lit) :: entries => by
    rw [evalLiteralEntries]
    exact finds_bind (finds_evalLiteral lit) fun v => finds_evalLiteralEntries (m.insert k v) entries

end

theorem finds_comparisonOrder (lv rv : Value) : Finds (comparisonOrder lv rv) := by
  unfold comparisonOrder
  split <;> first | exact finds_ok _ | exact finds_typeError _

theorem finds_evalComparison (lv rv : Value) (accepts : Ordering → Bool) :
    Finds (evalComparison lv rv accepts) := by
  refine finds_bind (finds_comparisonOrder lv rv) fun ord => ?_
  cases ord with
  | some o => exact finds_ok _
  | none => exact finds_ok _

theorem finds_evalArithmetic (lv rv : Value) (intOp : Int64 → Int64 → Option Int64)
    (floatOp : UInt64 → UInt64 → UInt64) : Finds (evalArithmetic lv rv intOp floatOp) := by
  unfold evalArithmetic
  split
  · split
    · exact finds_ok _
    · exact finds_expressionError (by decide)
  all_goals first | exact finds_ok _ | exact finds_typeError _

theorem finds_evalBinaryOp (lv : Value) (op : BinaryOp) (rv : Value) : Finds (evalBinaryOp lv op rv) := by
  cases op with
  | eq | neq => exact finds_ok _
  | lt | gt | le | ge => exact finds_evalComparison _ _ _
  | add | sub | mul =>
    unfold evalBinaryOp
    exact finds_evalArithmetic _ _ _ _
  | div | mod =>
    unfold evalBinaryOp
    dsimp only
    split
    · exact finds_expressionError (by decide)
    · exact finds_evalArithmetic _ _ _ _
  | and | or | xor =>
    unfold evalBinaryOp
    dsimp only
    split <;> exact finds_ok _
  | concat =>
    unfold evalBinaryOp
    dsimp only
    split <;> first | exact finds_ok _ | exact finds_typeError _

theorem finds_evalUnaryOp (op : UnaryOp) (v : Value) : Finds (evalUnaryOp op v) := by
  cases op with
  | not =>
    cases v <;> first | exact finds_ok _ | exact finds_typeError _
  | neg =>
    cases v with
    | integer i =>
      show Finds (if i = Int64.minValue then _ else _)
      split
      · exact finds_expressionError (by decide)
      · exact finds_ok _
    | _ => first | exact finds_ok _ | exact finds_typeError _
  | pos =>
    cases v <;> first | exact finds_ok _ | exact finds_typeError _

theorem finds_evalTemporal {α : Type} (function kind : String) (parse : String → Except String α)
    (wrap : α → Value) (v : Value) : Finds (evalTemporal function kind parse wrap v) := by
  unfold evalTemporal
  split
  · split
    · exact finds_ok _
    · exact finds_typeError _
  · exact finds_ok _
  · exact finds_typeError _

variable (env : Env)

theorem finds_evalFunction (name : String) (args : List Value) : Finds (evalFunction env name args) := by
  unfold evalFunction
  dsimp only
  generalize args.head?.getD .null = v
  split
  case h_1 | h_8 => exact finds_ok _
  case h_9 | h_10 | h_11 | h_12 | h_13 => exact finds_evalTemporal _ _ _ _ _
  case h_14 => exact finds_notImplemented _
  -- the others go by the kind of the argument
  all_goals
    cases v <;> first
      | exact finds_ok _
      | exact finds_typeError _
      | (dsimp only; split <;> first | exact finds_ok _ | exact finds_typeError _)

theorem finds_evalIn (val listVal : Value) : Finds (evalIn val listVal) := by
  unfold evalIn
  split
  · exact finds_ok _
  · exact finds_typeError _

/-! ## Expressions -/

section Check

variable (columns : List String) (exempt : String → Bool)

/-- A property access on a variable is answered from a column of its own, where there is one. -/
def hasPropertyColumn (property : String) : Expression → Bool
  | .identifier var => columns.contains (var ++ "." ++ property) || columns.contains property
  | _ => false

mutual

/-- Every identifier that evaluating the expression can look up is a column, or exempt. Expressions that
evaluation does not implement look nothing up. -/
def resolves : Expression → Bool
  | .identifier name => columns.contains name || exempt name
  | .propertyAccess object property => hasPropertyColumn columns property object || resolves object
  | .binaryOp left _ right => resolves left && resolves right
  | .unaryOp _ operand => resolves operand
  | .functionCall _ args => resolvesAll args
  | .aggregate _ _ arg => resolvesOption arg
  | .isNull inner | .isNotNull inner => resolves inner
  | .inList operand list => resolves operand && resolves list
  | .list items => resolvesAll items
  | .map entries => resolvesEntries entries
  | .caseWhen operand whenClauses elseClause =>
    resolvesOption operand && resolvesClauses whenClauses && resolvesOption elseClause
  | .literal _ | .parameter _ | .existsQuery | .subquery | .path | .like .. | .typeCast .. => true

def resolvesAll : List Expression → Bool
  | [] => true
  | expr :: exprs => resolves expr && resolvesAll exprs

def resolvesEntries : List (String × Expression) → Bool
  | [] => true
  | (_, val) :: entries => resolves val && resolvesEntries entries

def resolvesClauses : List (Expression × Expression) → Bool
  | [] => true
  | (whenExpr, thenExpr) :: clauses => resolves whenExpr && resolves thenExpr && resolvesClauses clauses

def resolvesOption : Option Expression → Bool
  | none => true
  | some expr => resolves expr

end

end Check

/-- No name is exempt. -/
def never (_ : String) : Bool := false

/-- Each of the columns has a value in the row. -/
def HasColumns (columns : List String) (r : Record) : Prop := ∀ c ∈ columns, (r.get c).isSome

section Evaluation

variable {env : Env} {columns : List String} {r : Record} (hr : HasColumns columns r)

include hr

set_option linter.unusedSectionVars false

theorem propertyColumn_isSome {object : Expression} {property : String}
    (h : hasPropertyColumn columns property object = true) :
    (propertyColumn r object property).isSome := by
  cases object with
  | identifier var =>
    simp only [hasPropertyColumn, Bool.or_eq_true, List.contains_iff_mem] at h
    show ((r.get (var ++ "." ++ property)).or (r.get property)).isSome = true
    rw [Option.isSome_or, Bool.or_eq_true]
    exact h.imp (hr _) (hr _)
  | _ => cases h

mutual

/-- **An expression that resolves finds its identifiers.** -/
theorem evaluate_of_resolves : (e : Expression) → resolves columns never e = true → Finds (evaluate env r e)
  | .literal lit => fun _ => by
    rw [evaluate]
    exact finds_evalLiteral lit
  | .identifier name => fun h => by
    simp only [resolves, never, Bool.or_false, List.contains_iff_mem] at h
    obtain ⟨v, hv⟩ := Option.isSome_iff_exists.mp (hr name h)
    rw [evaluate, hv]
    exact finds_ok v
  | .propertyAccess object property => fun h => by
    rw [resolves, Bool.or_eq_true] at h
    rw [evaluate]
    cases hcolumn : propertyColumn r object property with
    | some v => exact finds_ok v
    | none =>
      rcases h with h | h
      · have hsome := propertyColumn_isSome hr h
        rw [hcolumn] at hsome
        cases hsome
      · exact finds_bind (evaluate_of_resolves object h) fun _ => finds_ok _
  | .binaryOp left op right => fun h => by
    rw [resolves, Bool.and_eq_true] at h
    rw [evaluate]
    refine finds_bind (evaluate_of_resolves left h.1) fun lv => ?_
    have hright := evaluate_of_resolves right h.2
    cases op with
    | and =>
      dsimp only
      split
      · exact finds_ok _
      · exact finds_bind hright fun _ => finds_ok _
    | or =>
      dsimp only
      split
      · exact finds_ok _
      · exact finds_bind hright fun _ => finds_ok _
    | _ => exact finds_bind hright fun _ => finds_evalBinaryOp _ _ _
  | .unaryOp op operand => fun h => by
    rw [resolves] at h
    rw [evaluate]
    exact finds_bind (evaluate_of_resolves operand h) fun _ => finds_evalUnaryOp _ _
  | .isNull inner => fun h => by
    rw [resolves] at h
    rw [evaluate]
    exact finds_bind (evaluate_of_resolves inner h) fun _ => finds_ok _
  | .isNotNull inner => fun h => by
    rw [resolves] at h
    rw [evaluate]
    exact finds_bind (evaluate_of_resolves inner h) fun _ => finds_ok _
  | .inList operand list => fun h => by
    rw [resolves, Bool.and_eq_true] at h
    rw [evaluate]
    exact finds_bind (evaluate_of_resolves operand h.1) fun _ =>
      finds_bind (evaluate_of_resolves list h.2) fun _ => finds_evalIn _ _
  | .functionCall name args => fun h => by
    rw [resolves] at h
    rw [evaluate]
    exact finds_bind (evaluateAll_of_resolves args h) fun _ => finds_evalFunction env _ _
  | .aggregate function _ none => fun _ => by
    rw [evaluate]
    exact finds_ok _
  | .aggregate function _ (some inner) => fun h => by
    rw [resolves, resolvesOption] at h
    rw [evaluate]
    exact evaluate_of_resolves inner h
  | .list items => fun h => by
    rw [resolves] at h
    rw [evaluate]
    exact finds_bind (evaluateAll_of_resolves items h) fun _ => finds_ok _
  | .map entries => fun h => by
    rw [resolves] at h
    rw [evaluate]
    exact finds_bind (evaluateEntries_of_resolves ∅ entries h) fun _ => finds_ok _
  | .caseWhen none whenClauses elseClause => fun h => by
    rw [resolves, Bool.and_eq_true, Bool.and_eq_true] at h
    rw [evaluate]
    refine finds_bind (evaluateWhen_of_resolves _ whenClauses h.1.2) fun found => ?_
    cases found with
    | some v => exact finds_ok v
    | none => exact evaluateElse_of_resolves elseClause h.2
  | .caseWhen (some operand) whenClauses elseClause => fun h => by
    rw [resolves, Bool.and_eq_true, Bool.and_eq_true, resolvesOption] at h
    rw [evaluate]
    refine finds_bind (evaluate_of_resolves operand h.1.1) fun opVal =>
      finds_bind (evaluateWhen_of_resolves _ whenClauses h.1.2) fun found => ?_
    cases found with
    | some v => exact finds_ok v
    | none => exact evaluateElse_of_resolves elseClause h.2
  | .existsQuery | .parameter _ | .subquery | .like _ _ | .typeCast _ _ | .path => fun _ => by
    rw [evaluate]
    exact finds_notImplemented _

theorem evaluateAll_of_resolves : (es : List Expression) → resolvesAll columns never es = true →
    Finds (evaluateAll env r es)
  | [] => fun _ => by
    rw [evaluateAll]
    exact finds_ok _
  | e :: es => fun h => by
    rw [resolvesAll, Bool.and_eq_true] at h
    rw [evaluateAll]
    exact finds_bind (evaluate_of_resolves e h.1) fun _ =>
      finds_bind (evaluateAll_of_resolves es h.2) fun _ => finds_ok _

theorem evaluateEntries_of_resolves (m : Properties) : (entries : List (String × Expression)) →
    resolvesEntries columns never entries = true → Finds (evaluateEntries env r m entries)
  | [] => fun _ => by
    rw [evaluateEntries]
    exact finds_ok _
  | (key, e) :: entries => fun h => by
    rw [resolvesEntries, Bool.and_eq_true] at h
    rw [evaluateEntries]
    exact finds_bind (evaluate_of_resolves e h.1) fun v =>
      evaluateEntries_of_resolves (m.insert key v) entries h.2

theorem evaluateWhen_of_resolves (applies : Value → Bool) : (clauses : List (Expression × Expression)) →
    resolvesClauses columns never clauses = true → Finds (evaluateWhen env r applies clauses)
  | [] => fun _ => by
    rw [evaluateWhen]
    exact finds_ok _
  | (whenExpr, thenExpr) :: clauses => fun h => by
    rw [resolvesClauses, Bool.and_eq_true, Bool.and_eq_true] at h
    rw [evaluateWhen]
    refine finds_bind (evaluate_of_resolves whenExpr h.1.1) fun w => ?_
    split
    · exact finds_bind (evaluate_of_resolves thenExpr h.1.2) fun _ => finds_ok _
    · exact evaluateWhen_of_resolves applies clauses h.2

theorem evaluateElse_of_resolves : (e : Option Expression) → resolvesOption columns never e = true →
    Finds (evaluateElse env r e)
  | none => fun _ => by
    rw [evaluateElse]
    exact finds_ok _
  | some e => fun h => by
    rw [resolvesOption] at h
    rw [evaluateElse]
    exact evaluate_of_resolves e h

end

end Evaluation

/-! ## What the analyzer checks -/

section Analyzer

open SemanticAnalyzer

variable {columns scope : List String}

/-- The names that an analyzer with this scope does not let pass. -/
def outside (scope : List String) (name : String) : Bool := !scope.contains name

theorem unit_bind_eq_ok {ε : Type} {x y : Except ε Unit} {u : Unit} :
    (do x; y) = .ok u ↔ x = .ok () ∧ y = .ok u := by
  cases x with
  | error e => simp [bind, Except.bind]
  | ok v => simp [bind, Except.bind]

theorem hasPropertyColumn_or {object : Expression} {property : String} {b c : Bool}
    (h : (hasPropertyColumn columns property object || b) = true) (himp : b = true → c = true) :
    (hasPropertyColumn columns property object || c) = true := by
  rw [Bool.or_eq_true] at h ⊢
  exact h.imp_right himp

mutual

/-- **A checked expression** resolves once those of its names that are in scope do. -/
theorem resolves_of_checked : (e : Expression) → checkExpression scope e = .ok () →
    resolves columns (outside scope) e = true → resolves columns never e = true
  | .identifier name => fun hcheck h => by
    rw [checkExpression] at hcheck
    by_cases hmem : name ∈ scope
    · simpa [resolves, never, outside, hmem] using h
    · rw [if_neg hmem] at hcheck
      cases hcheck
  | .propertyAccess object property => fun hcheck h => by
    rw [checkExpression] at hcheck
    rw [resolves] at h ⊢
    exact hasPropertyColumn_or h (resolves_of_checked object hcheck)
  | .binaryOp left _ right => fun hcheck h => by
    rw [checkExpression, unit_bind_eq_ok] at hcheck
    rw [resolves, Bool.and_eq_true] at h ⊢
    exact ⟨resolves_of_checked left hcheck.1 h.1, resolves_of_checked right hcheck.2 h.2⟩
  | .unaryOp _ operand => fun hcheck h => by
    rw [checkExpression] at hcheck
    rw [resolves] at h ⊢
    exact resolves_of_checked operand hcheck h
  | .functionCall _ args => fun hcheck h => by
    rw [checkExpression] at hcheck
    rw [resolves] at h ⊢
    exact resolvesAll_of_checked args hcheck h
  | .aggregate _ _ arg => fun hcheck h => by
    rw [checkExpression] at hcheck
    rw [resolves] at h ⊢
    exact resolvesOption_of_checked arg hcheck h
  | .isNull inner => fun hcheck h => by
    rw [checkExpression] at hcheck
    rw [resolves] at h ⊢
    exact resolves_of_checked inner hcheck h
  | .isNotNull inner => fun hcheck h => by
    rw [checkExpression] at hcheck
    rw [resolves] at h ⊢
    exact resolves_of_checked inner hcheck h
  | .inList operand list => fun hcheck h => by
    rw [checkExpression, unit_bind_eq_ok] at hcheck
    rw [resolves, Bool.and_eq_true] at h ⊢
    exact ⟨resolves_of_checked operand hcheck.1 h.1, resolves_of_checked list hcheck.2 h.2⟩
  | .list items => fun hcheck h => by
    rw [checkExpression] at hcheck
    rw [resolves] at h ⊢
    exact resolvesAll_of_checked items hcheck h
  | .map entries => fun hcheck h => by
    rw [checkExpression] at hcheck
    rw [resolves] at h ⊢
    exact resolvesEntries_of_checked entries hcheck h
  | .caseWhen operand whenClauses elseClause => fun hcheck h => by
    rw [checkExpression, unit_bind_eq_ok, unit_bind_eq_ok] at hcheck
    rw [resolves, Bool.and_eq_true, Bool.and_eq_true] at h ⊢
    exact ⟨⟨resolvesOption_of_checked operand hcheck.1 h.1.1,
      resolvesClauses_of_checked whenClauses hcheck.2.1 h.1.2⟩,
      resolvesOption_of_checked elseClause hcheck.2.2 h.2⟩
  | .literal _ | .parameter _ | .existsQuery | .subquery | .path | .like _ _ | .typeCast _ _ => fun _ _ => by
    rw [resolves]

theorem resolvesAll_of_checked : (es : List Expression) → checkAll scope es = .ok () →
    resolvesAll columns (outside scope) es = true → resolvesAll columns never es = true
  | [] => fun _ _ => by rw [resolvesAll]
  | e :: es => fun hcheck h => by
    rw [checkAll, unit_bind_eq_ok] at hcheck
    rw [resolvesAll, Bool.and_eq_true] at h ⊢
    exact ⟨resolves_of_checked e hcheck.1 h.1, resolvesAll_of_checked es hcheck.2 h.2⟩

theorem resolvesEntries_of_checked : (entries : List (String × Expression)) →
    checkEntries scope entries = .ok () → resolvesEntries columns (outside scope) entries = true →
      resolvesEntries columns never entries = true
  | [] => fun _ _ => by rw [resolvesEntries]
  | (_, e) :: entries => fun hcheck h => by
    rw [checkEntries, unit_bind_eq_ok] at hcheck
    rw [resolvesEntries, Bool.and_eq_true] at h ⊢
    exact ⟨resolves_of_checked e hcheck.1 h.1, resolvesEntries_of_checked entries hcheck.2 h.2⟩

theorem resolvesClauses_of_checked : (clauses : List (Expression × Expression)) →
    checkClauses scope clauses = .ok () → resolvesClauses columns (outside scope) clauses = true →
      resolvesClauses columns never clauses = true
  | [] => fun _ _ => by rw [resolvesClauses]
  | (whenExpr, thenExpr) :: clauses => fun hcheck h => by
    rw [checkClauses, unit_bind_eq_ok, unit_bind_eq_ok] at hcheck
    rw [resolvesClauses, Bool.and_eq_true, Bool.and_eq_true] at h ⊢
    exact ⟨⟨resolves_of_checked whenExpr hcheck.1 h.1.1, resolves_of_checked thenExpr hcheck.2.1 h.1.2⟩,
      resolvesClauses_of_checked clauses hcheck.2.2 h.2⟩

theorem resolvesOption_of_checked : (e : Option Expression) → checkOption scope e = .ok () →
    resolvesOption columns (outside scope) e = true → resolvesOption columns never e = true
  | none => fun _ _ => by rw [resolvesOption]
  | some e => fun hcheck h => by
    rw [checkOption] at hcheck
    rw [resolvesOption] at h ⊢
    exact resolves_of_checked e hcheck h

end

end Analyzer

end Synaptica.Exec
