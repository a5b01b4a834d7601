import FilterQuery.Json.Write
import FilterQuery.Md5
import FilterQuery.Query

/-!
# Queries as JSON

The JSON form of a query: a condition is an object with its `kind`, an operand an object with one
member, a literal an object with its `type` and `value`. `Query.jsonText` is the text without white
space, and `Query.fingerprint` its MD5 digest, which serves as a key for the query.
-/

set_option autoImplicit false

namespace FilterQuery

/-! ## Names -/

/-- The name of an operator. -/
def Operator.tag : Operator → String
  | .eq => "EQ"
  | .ne => "NE"
  | .lt => "LT"
  | .lte => "LTE"
  | .gt => "GT"
  | .gte => "GTE"
  | .isIn => "IN"
  | .between => "BETWEEN"
  | .isNull => "IS_NULL"
  | .isNotNull => "IS_NOT_NULL"

/-! ## Operands -/

/-- Floats in JSON are positional from `1e-5` up to `1e16`. -/
def Literal.jsonLayout : Layout := ⟨.even, -5, 15, true⟩

/-- A float; JSON has no infinity, and writes `null` for it. -/
def Literal.floatJson (x : Double) : Json :=
  if x.isFinite then .number (jsonLayout.numeral x) else .null

/-- A literal with its type. -/
def Literal.toJson : Literal → Json
  | .string s => .record [("type", .str "string"), ("value", .str s)]
  | .integer n => .record [("type", .str "integer"), ("value", .int n.toInt)]
  | .float x => .record [("type", .str "float"), ("value", floatJson x)]
  | .boolean b => .record [("type", .str "boolean"), ("value", .bool b)]

/-- A path with its identifiers. -/
def Path.toJson (p : Path) : Json := .record [("identifiers", .array (p.identifiers.map .str))]

/-- An operand, by its one member. -/
def Operand.toJson : Operand → Json
  | .path p => .record [("path", p.toJson)]
  | .literal l => .record [("literal", l.toJson)]
  | .aggregate f p =>
      .record [("aggregate", .record [("function", .str f.name), ("path", p.toJson)])]

/-! ## Conditions -/

namespace Condition

mutual

/-- A condition with its kind. -/
def toJson : Condition → Json
  | .anyOf cs => .record [("kind", .str "logical_or"), ("children", .array (listToJson cs))]
  | .allOf cs => .record [("kind", .str "logical_and"), ("children", .array (listToJson cs))]
  | .compare l o r j =>
      .record [("kind", .str "binary_comparison"), ("left", l.toJson), ("operator", .str o.tag),
        ("right", r.toJson), ("join_type", .str j.keyword)]
  | .isIn l vs j =>
      .record [("kind", .str "in_comparison"), ("left", l.toJson),
        ("values", .array (vs.map Operand.toJson)), ("join_type", .str j.keyword)]
  | .between l a b j =>
      .record [("kind", .str "between_comparison"), ("left", l.toJson), ("from", a.toJson),
        ("to", b.toJson), ("join_type", .str j.keyword)]
  | .nullTest l o j =>
      .record [("kind", .str "unary_comparison"), ("left", l.toJson), ("operator", .str o.tag),
        ("join_type", .str j.keyword)]

/-- Conditions one after the other. -/
def listToJson : List Condition → List Json
  | [] => []
  | c :: cs => c.toJson :: listToJson cs

end

end Condition

/-! ## Queries -/

namespace Query

/-- The items to group by. -/
def groupingToJson (items : List Operand) : Json :=
  .record [("items", .array (items.map Operand.toJson))]

/-- A query with its three parts; what is missing is `null`. -/
def toJson (q : Query) : Json :=
  .record [("where_spec", q.condition.toJson),
    ("having_spec", match q.having with
      | some c => c.toJson
      | none => .null),
    ("group_by", match q.grouping with
      | some items => groupingToJson items
      | none => .null)]

/-- The JSON text of a query. -/
def jsonText (q : Query) : String := q.toJson.toText

/-- The digest of the JSON text, in hexadecimal digits. -/
def fingerprint (q : Query) : String := Md5.hexDigest q.jsonText

end Query

end FilterQuery
