import FilterQuery.Query

/-!
# Outlines

A query as indented lines for a reader: `Query.outline` lists the clauses, and under each of them
the nodes of its condition, a level deeper for the children of a node.
-/

set_option autoImplicit false

namespace FilterQuery

namespace Operand

/-- Operands in brackets. -/
def listText (os : List Operand) : String := "[" ++ ", ".intercalate (os.map text) ++ "]"

end Operand

namespace Condition

mutual

/-- The lines of a condition, each with its depth. -/
def outline (depth : Nat) : Condition → List (Nat × String)
  | .anyOf cs => (depth, "OR " ++ toString cs.length) :: outlineAll (depth + 1) cs
  | .allOf cs => (depth, "AND " ++ toString cs.length) :: outlineAll (depth + 1) cs
  | .compare l o r j =>
      [(depth, j.text ++ ": " ++ l.text ++ " " ++ o.symbol ++ " " ++ r.text)]
  | .isIn l vs j => [(depth, j.text ++ ": " ++ l.text ++ " IN " ++ Operand.listText vs)]
  | .between l a b j =>
      [(depth, j.text ++ ": " ++ l.text ++ " BETWEEN " ++ a.text ++ " AND " ++ b.text)]
  | .nullTest l o j => [(depth, j.text ++ ": " ++ l.text ++ " " ++ o.symbol)]

/-- The lines of conditions, one after the other. -/
def outlineAll (depth : Nat) : List Condition → List (Nat × String)
  | [] => []
  | c :: cs => c.outline depth ++ outlineAll depth cs

end

end Condition

namespace Query

/-- The lines of a query, each with its depth. -/
def outline (q : Query) : List (Nat × String) :=
  (0, "where") :: q.condition.outline 0 ++
    (match q.having with
      | some c => (0, "having") :: c.outline 0
      | none => []) ++
    (match q.grouping with
      | some items =>
          [(0, "group_by empty=" ++ toString items.isEmpty ++ " " ++ Operand.listText items)]
      | none => [])

end Query

end FilterQuery
