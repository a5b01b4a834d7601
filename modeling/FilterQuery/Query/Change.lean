import FilterQuery.Query

/-!
# Changes

Replacing one part of a condition or of a query. A `Condition.Change` fits only the nodes that have
the part; the other parts keep their values.
-/

set_option autoImplicit false

namespace FilterQuery

/-- A new value for one part of a comparison. -/
inductive Condition.Change where
  | left (o : Operand)
  | operator (o : Operator)
  | right (o : Operand)
  | values (os : List Operand)
  | bounds (low high : Operand)
  | join (j : JoinKind)
  deriving DecidableEq, Repr

/-- The condition with one part replaced, if it has that part. -/
def Condition.change? : Condition → Condition.Change → Option Condition
  | .compare _ o r j, .left l => some (.compare l o r j)
  | .compare l _ r j, .operator o => some (.compare l o r j)
  | .compare l o _ j, .right r => some (.compare l o r j)
  | .compare l o r _, .join j => some (.compare l o r j)
  | .isIn _ vs j, .left l => some (.isIn l vs j)
  | .isIn l _ j, .values vs => some (.isIn l vs j)
  | .isIn l vs _, .join j => some (.isIn l vs j)
  | .between _ a b j, .left l => some (.between l a b j)
  | .between l _ _ j, .bounds a b => some (.between l a b j)
  | .between l a b _, .join j => some (.between l a b j)
  | .nullTest _ o j, .left l => some (.nullTest l o j)
  | .nullTest l _ j, .operator o => some (.nullTest l o j)
  | .nullTest l o _, .join j => some (.nullTest l o j)
  | _, _ => none

/-- A new value for one part of a query. -/
inductive Query.Change where
  | condition (c : Condition)
  | having (c : Option Condition)
  | grouping (items : Option (List Operand))
  deriving Repr

/-- The query with one part replaced. -/
def Query.change (q : Query) : Query.Change → Query
  | .condition c => { q with condition := c }
  | .having c => { q with having := c }
  | .grouping items => { q with grouping := items }

end FilterQuery
