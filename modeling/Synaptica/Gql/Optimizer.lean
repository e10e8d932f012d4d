import Synaptica.Gql.Planner

/-!
# The rule-based optimizer

`synaptica_gql::optimizer`: rules rewrite the root of a logical plan or leave it as it is. The one rule that
is there by default moves a filter below a projection.
-/

namespace Synaptica.Gql

/-- A single optimization rule; `apply` answers `none` when it left the node unchanged. -/
structure OptimizerRule where
  name : String
  apply : LogicalPlan → Option LogicalPlan

/-- Filter-over-Project is swapped so that the filter is applied before the projection. -/
def filterPushdown : OptimizerRule where
  name := "FilterPushdown"
  apply
    | .filter (.project projInput expressions aliases) predicate =>
      some (.project (.filter projInput predicate) expressions aliases)
    | _ => none

/-- Applies a sequence of rules to a logical plan. -/
structure QueryOptimizer where
  rules : List OptimizerRule

namespace QueryOptimizer

/-- `QueryOptimizer::new`. -/
def new : QueryOptimizer := ⟨[filterPushdown]⟩

/-- Every rule is applied once, at the root. -/
def optimize (optimizer : QueryOptimizer) (plan : LogicalPlan) : LogicalPlan :=
  optimizer.rules.foldl (fun current rule => (rule.apply current).getD current) plan

end QueryOptimizer

end Synaptica.Gql
