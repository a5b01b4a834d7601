import FilterQuery.Token

/-!
# Parse trees

The structure of a query over the tokens it is written with. A condition is a disjunction of
conjunctions; a conjunction holds comparisons and groups in parentheses, and a group holds a
disjunction again. The tokens that only separate or enclose (commas, dots, parentheses, `AND`,
`OR`) are not kept.
-/

set_option autoImplicit false

namespace FilterQuery.Tree

/-- The identifiers of a dotted path. -/
abbrev Path := List Token

/-- An aggregate call; without an argument it is the call with `*`. -/
structure Call where
  function : Token
  argument : Option Path
  deriving DecidableEq, Repr

/-- What a comparison starts with and what rows are grouped by. -/
inductive Selectable where
  | path (path : Path)
  | call (call : Call)
  deriving DecidableEq, Repr

/-- What a comparison compares with. -/
inductive Value where
  | path (path : Path)
  | call (call : Call)
  | string (token : Token)
  | number (token : Token)
  deriving DecidableEq, Repr

/-- What a comparison asks of its left side. -/
inductive Test where
  | compare (operator : Token) (value : Value)
  | isIn (values : List Value)
  | between (low high : Value)
  | null
  | notNull
  deriving DecidableEq, Repr

/-- A comparison, with the keyword of a join if one stands before it. -/
structure Comparison where
  join : Option Token
  left : Selectable
  test : Test
  deriving DecidableEq, Repr

/-- A term of a conjunction: a group, as the disjunction inside its parentheses, or a
comparison. -/
inductive Primary where
  | group (inner : List (List Primary))
  | comparison (comparison : Comparison)
  deriving Repr

/-- Terms joined by `AND`. -/
abbrev Conjunction := List Primary

/-- Conjunctions joined by `OR`. -/
abbrev Disjunction := List Conjunction

/-- A whole query: its condition, the items after `GROUP BY`, and the condition after
`HAVING`. -/
structure Root where
  condition : Disjunction
  grouping : Option (List Selectable)
  having : Option Disjunction
  deriving Repr

end FilterQuery.Tree
