import FilterQuery.Json.Fields
import FilterQuery.Json.Read
import FilterQuery.Query.ToJson

/-!
# Queries from JSON

`Query.ofJsonText?` reads the JSON form of a query, in any spelling: members in any order,
records as arrays, members that are not known. The two conditions are read whole before they are
looked at, so everything in them has to be exact and must not nest too deep, even what is ignored
later; in exchange, names and kinds inside them are taken leniently.
-/

set_option autoImplicit false

namespace FilterQuery

/-- How deep arrays and objects may nest. -/
def maxJsonDepth : Nat := 127

/-! ## Names -/

/-- The operator with a name. -/
def Operator.ofTag? (s : String) : Option Operator := all.find? fun o => o.tag == s

/-- The operator that a value names. -/
def Operator.ofJson? (s : Json.Strictness) (j : Json) : Option Operator :=
  (j.name? s).bind Operator.ofTag?

/-- The function that a value names. -/
def Aggregate.ofJson? (s : Json.Strictness) (j : Json) : Option Aggregate :=
  (j.name? s).bind fun name => all.find? fun f => f.name == name

/-- The kind of join that a value names. -/
def JoinKind.ofJson? (s : Json.Strictness) (j : Json) : Option JoinKind :=
  (j.name? s).bind fun name => all.find? fun k => k.keyword == name

/-! ## Operands -/

/-- A 64-bit integer. -/
def Literal.int64? (i : Int) : Option Int64 :=
  if Int64.minValue.toInt ≤ i ∧ i ≤ Int64.maxValue.toInt then some (.ofInt i) else none

/-- The literal of a type and a value. -/
def Literal.ofParts? : String → Json → Option Literal
  | "string", .text s => s.map .string
  | "integer", .number n => (n.toInt?.bind int64?).map .integer
  | "float", .number n => n.toJsonDouble.map .float
  | "boolean", .bool b => some (.boolean b)
  | _, _ => none

/-- The types of literals, in their order. -/
def Literal.types : List String := ["string", "integer", "float", "boolean"]

/-- A literal. In an object its type is a name; at the head of an array it is one of the types, as
the kind of a condition is one of the kinds. -/
def Literal.ofJson? (s : Json.Strictness) : Json → Option Literal
  | .array [type, value] => (Json.kind? types s type).bind fun type => ofParts? type value
  | .object members =>
      match (Json.object members).allFields? ["type", "value"] with
      | some [type, value] => (type.name? s).bind fun type => ofParts? type value
      | _ => none
  | _ => none

/-- A path. -/
def Path.ofJson? (j : Json) : Option Path :=
  match j.allFields? ["identifiers"] with
  | some [identifiers] => identifiers.strings?.map Path.mk
  | _ => none

/-- A function and its path. -/
def Operand.aggregateOfJson? (s : Json.Strictness) (j : Json) : Option Operand :=
  match j.allFields? ["function", "path"] with
  | some [f, p] => do
      let f ← Aggregate.ofJson? s f
      let p ← Path.ofJson? p
      some (.aggregate f p)
  | _ => none

/-- An operand: an object with exactly one member. -/
def Operand.ofJson? (s : Json.Strictness) : Json → Option Operand
  | .object [(some "path", j)] => (Path.ofJson? j).map .path
  | .object [(some "literal", j)] => (Literal.ofJson? s j).map .literal
  | .object [(some "aggregate", j)] => aggregateOfJson? s j
  | _ => none

/-- An array of operands. -/
def Operand.listOfJson? (s : Json.Strictness) (j : Json) : Option (List Operand) :=
  j.items?.bind fun items => items.mapM (Operand.ofJson? s)

/-! ## Conditions -/

namespace Condition

/-- The fields of a binary comparison. -/
def compareOfJson? (j : Json) : Option Condition :=
  match j.allFields? ["left", "operator", "right", "join_type"] with
  | some [l, o, r, k] => do
      let l ← Operand.ofJson? .lenient l
      let o ← Operator.ofJson? .lenient o
      let r ← Operand.ofJson? .lenient r
      let k ← JoinKind.ofJson? .lenient k
      some (.compare l o r k)
  | _ => none

/-- The fields of a comparison with a list. -/
def isInOfJson? (j : Json) : Option Condition :=
  match j.allFields? ["left", "values", "join_type"] with
  | some [l, vs, k] => do
      let l ← Operand.ofJson? .lenient l
      let vs ← Operand.listOfJson? .lenient vs
      let k ← JoinKind.ofJson? .lenient k
      some (.isIn l vs k)
  | _ => none

/-- The fields of a comparison with two bounds. -/
def betweenOfJson? (j : Json) : Option Condition :=
  match j.allFields? ["left", "from", "to", "join_type"] with
  | some [l, a, b, k] => do
      let l ← Operand.ofJson? .lenient l
      let a ← Operand.ofJson? .lenient a
      let b ← Operand.ofJson? .lenient b
      let k ← JoinKind.ofJson? .lenient k
      some (.between l a b k)
  | _ => none

/-- The fields of a null test. -/
def nullTestOfJson? (j : Json) : Option Condition :=
  match j.allFields? ["left", "operator", "join_type"] with
  | some [l, o, k] => do
      let l ← Operand.ofJson? .lenient l
      let o ← Operator.ofJson? .lenient o
      let k ← JoinKind.ofJson? .lenient k
      some (.nullTest l o k)
  | _ => none

/-- The field of a node with children. -/
def childrenOfJson? (child : Json → Option Condition) (j : Json) : Option (List Condition) :=
  match j.allFields? ["children"] with
  | some [.array items] => items.mapM child
  | _ => none

/-- The kinds of conditions, in their order. -/
def kinds : List String :=
  ["logical_or", "logical_and", "binary_comparison", "in_comparison", "between_comparison",
    "unary_comparison"]

/-- A condition. The first argument bounds the nesting of conditions; the depth of the value is
enough, because a condition is an array or an object. The second tells how its own kind is taken;
those of the conditions inside it are taken leniently. -/
def ofJsonWithin? : Nat → Json.Strictness → Json → Option Condition
  | 0, _, _ => none
  | levels + 1, s, j =>
      match j.tagged? "kind" (Json.kind? kinds s) with
      | some ("logical_or", j) => (childrenOfJson? (ofJsonWithin? levels .lenient) j).map .anyOf
      | some ("logical_and", j) => (childrenOfJson? (ofJsonWithin? levels .lenient) j).map .allOf
      | some ("binary_comparison", j) => compareOfJson? j
      | some ("in_comparison", j) => isInOfJson? j
      | some ("between_comparison", j) => betweenOfJson? j
      | some ("unary_comparison", j) => nullTestOfJson? j
      | _ => none

/-- A condition; everything in the value has to be exact. -/
def ofJson? (j : Json) : Option Condition :=
  if j.exact then ofJsonWithin? j.depth .strict j else none

end Condition

/-! ## Queries -/

namespace Query

/-- A condition inside a query, which may nest one level less than the query. -/
def conditionOfJson? (j : Json) : Option Condition :=
  if j.depth < maxJsonDepth then Condition.ofJson? j else none

/-- The condition on groups, which may be missing or `null`. -/
def havingOfJson? : Option Json → Option (Option Condition)
  | none => some none
  | some .null => some none
  | some j => (conditionOfJson? j).map some

/-- The items to group by, which may be missing or `null`. -/
def groupingOfJson? : Option Json → Option (Option (List Operand))
  | none => some none
  | some .null => some none
  | some j =>
      match j.allFields? ["items"] with
      | some [items] => (Operand.listOfJson? .strict items).map some
      | _ => none

/-- A query. -/
def ofJson? (j : Json) : Option Query :=
  match j.fields? ["where_spec", "having_spec", "group_by"] 0 with
  | some [some condition, having, grouping] => do
      let condition ← conditionOfJson? condition
      let having ← havingOfJson? having
      let grouping ← groupingOfJson? grouping
      some ⟨condition, having, grouping⟩
  | _ => none

/-- The query of a JSON text. -/
def ofJsonText? (s : String) : Option Query := (Json.ofText? s).bind ofJson?

end Query

end FilterQuery
