import FilterQuery.Query

/-!
# SQL trees

What a query is lowered to for SQL: expressions over columns and parameters, predicates built from
them, joins, and the `Select` that puts all of it together.
-/

set_option autoImplicit false

namespace FilterQuery.Sql

/-- A column of the table with a label. -/
structure Column where
  label : String
  name : String
  deriving DecidableEq, Repr

/-- An expression. Literal values are parameters of the statement. -/
inductive Expr where
  | column (c : Column)
  | param (l : Literal)
  | aggregate (f : Aggregate) (argument : Expr)
  /-- The function over the rows of a group, written with `*`. -/
  | aggregateAll (f : Aggregate)
  deriving DecidableEq, Repr

/-- A predicate on rows or groups. -/
inductive Predicate where
  | always
  | compare (operator : Operator) (left right : Expr)
  | isNull (e : Expr)
  | isNotNull (e : Expr)
  | between (e low high : Expr)
  | isIn (e : Expr) (values : List Expr)
  | and (left right : Predicate)
  | or (left right : Predicate)
  deriving DecidableEq, Repr

/-- A joined table: its label, and the keys that tie it to the table with the parent's label. -/
structure Join where
  kind : JoinKind
  table : String
  label : String
  parentLabel : String
  localKey : String
  foreignKey : String
  deriving DecidableEq, Repr

/-- A statement that selects rows or groups of rows. -/
structure Select where
  table : String
  label : String
  joins : List Join
  condition : Option Predicate
  grouping : List Expr
  having : Option Predicate
  deriving DecidableEq, Repr

end FilterQuery.Sql
