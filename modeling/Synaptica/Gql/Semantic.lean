import Synaptica.Gql.Ast

/-!
# The semantic analyzer

`synaptica_gql::semantic`: a walk over a program that collects the variables of `MATCH` patterns in one scope
and demands that the identifiers of `WHERE` conditions and `RETURN` items are in it. Inline properties of a
pattern and the keys of an `ORDER BY` are not walked over.
-/

namespace Synaptica.Gql

/-- Errors detected during semantic analysis. -/
inductive SemanticError where
  | undefinedVariable (name : String)
  | duplicateVariable (name : String)
  deriving DecidableEq, Repr

namespace SemanticAnalyzer

mutual

/-- Recursively verify that every identifier in an expression is in scope. -/
def checkExpression (scope : List String) : Expression → Except SemanticError Unit
  | .identifier name => if name ∈ scope then .ok () else .error (.undefinedVariable name)
  | .propertyAccess object _ => checkExpression scope object
  | .binaryOp left _ right => do
    checkExpression scope left
    checkExpression scope right
  | .unaryOp _ operand => checkExpression scope operand
  | .functionCall _ args => checkAll scope args
  | .aggregate _ _ arg => checkOption scope arg
  | .isNull inner | .isNotNull inner => checkExpression scope inner
  | .inList operand list => do
    checkExpression scope operand
    checkExpression scope list
  | .like operand pattern => do
    checkExpression scope operand
    checkExpression scope pattern
  | .list items => checkAll scope items
  | .map entries => checkEntries scope entries
  | .caseWhen operand whenClauses elseClause => do
    checkOption scope operand
    checkClauses scope whenClauses
    checkOption scope elseClause
  | .typeCast expr _ => checkExpression scope expr
  | .literal _ | .parameter _ | .existsQuery | .subquery | .path => .ok ()

def checkAll (scope : List String) : List Expression → Except SemanticError Unit
  | [] => .ok ()
  | expr :: exprs => do
    checkExpression scope expr
    checkAll scope exprs

def checkEntries (scope : List String) : List (String × Expression) → Except SemanticError Unit
  | [] => .ok ()
  | (_, val) :: entries => do
    checkExpression scope val
    checkEntries scope entries

def checkClauses (scope : List String) : List (Expression × Expression) → Except SemanticError Unit
  | [] => .ok ()
  | (whenExpr, thenExpr) :: clauses => do
    checkExpression scope whenExpr
    checkExpression scope thenExpr
    checkClauses scope clauses

def checkOption (scope : List String) : Option Expression → Except SemanticError Unit
  | none => .ok ()
  | some expr => checkExpression scope expr

end

/-- Bring the variable of a pattern element into scope. -/
def bindVariable (scope : List String) (elem : PatternElement) : Except SemanticError (List String) :=
  let var :=
    match elem with
    | .node n => n.var
    | .edge e => e.var
  match var with
  | none => .ok scope
  | some name => if name ∈ scope then .error (.duplicateVariable name) else .ok (name :: scope)

/-- Collect variables introduced by `MATCH` and validate `WHERE` references. -/
def analyzeMatch (scope : List String) (m : MatchStatement) : Except SemanticError (List String) := do
  let scope ← (m.paths.flatMap (·.elements)).foldlM bindVariable scope
  checkOption scope m.whereClause
  pure scope

/-- Validate that `RETURN` items only reference variables that are in scope. -/
def analyzeReturn (scope : List String) (r : ReturnStatement) : Except SemanticError Unit :=
  checkAll scope (r.items.map (·.expression))

/-- The scope after a statement; other kinds of statements are not covered by the pass. -/
def analyzeStatement (scope : List String) : GqlStatement → Except SemanticError (List String)
  | .matchStmt m => analyzeMatch scope m
  | .returnStmt r => do
    analyzeReturn scope r
    pure scope
  | _ => .ok scope

def analyzeFrom (scope : List String) (statements : List GqlStatement) : Except SemanticError (List String) :=
  statements.foldlM analyzeStatement scope

/-- Analyse a complete GQL program, from an empty scope. -/
def analyze (program : GqlProgram) : Except SemanticError Unit := do
  let _ ← analyzeFrom [] program.statements
  pure ()

end SemanticAnalyzer

end Synaptica.Gql
