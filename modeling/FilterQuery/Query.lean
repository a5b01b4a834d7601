import FilterQuery.Double.Shortest
import FilterQuery.Text.Letters

/-!
# Queries

What a filter query means, free of the tokens it was written with. A `Condition` is built from
comparisons of operands by `anyOf` and `allOf`; a `Query` has a condition on rows, and maybe a
condition on groups and a list of operands to group by. `Condition.rec'` is the induction principle
that proofs over conditions use. The texts of the parts (`Operand.text`, `Operator.symbol`, …) are
the ones that messages and outlines show.
-/

set_option autoImplicit false

namespace FilterQuery

/-! ## Vocabulary -/

/-- Comparison operators. -/
inductive Operator where
  | eq | ne | lt | lte | gt | gte | isIn | between | isNull | isNotNull
  deriving DecidableEq, Repr

namespace Operator

/-- All operators. -/
def all : List Operator := [.eq, .ne, .lt, .lte, .gt, .gte, .isIn, .between, .isNull, .isNotNull]

/-- The spelling of an operator. -/
def symbol : Operator → String
  | .eq => "="
  | .ne => "!="
  | .lt => "<"
  | .lte => "<="
  | .gt => ">"
  | .gte => ">="
  | .isIn => "IN"
  | .between => "BETWEEN"
  | .isNull => "IS NULL"
  | .isNotNull => "IS NOT NULL"

/-- The operator with a spelling, in any letter case. -/
def ofSymbol? (s : String) : Option Operator := all.find? fun o => Text.sameWord o.symbol s

/-- The operator stands between two operands. -/
def isBinary : Operator → Bool
  | .eq | .ne | .lt | .lte | .gt | .gte => true
  | _ => false

/-- The operator stands after one operand. -/
def isUnary : Operator → Bool
  | .isNull | .isNotNull => true
  | _ => false

/-- Every operator is found under its own spelling. -/
theorem ofSymbol?_symbol (o : Operator) : ofSymbol? o.symbol = some o := by
  cases o <;> decide

end Operator

/-- Functions over a group of rows. -/
inductive Aggregate where
  | count | sum | avg | min | max
  deriving DecidableEq, Repr

namespace Aggregate

/-- All functions. -/
def all : List Aggregate := [.count, .sum, .avg, .min, .max]

/-- The name of a function. -/
def name : Aggregate → String
  | .count => "COUNT"
  | .sum => "SUM"
  | .avg => "AVG"
  | .min => "MIN"
  | .max => "MAX"

/-- The function with a name, in any letter case. -/
def ofName? (s : String) : Option Aggregate := all.find? fun f => Text.sameWord f.name s

theorem ofName?_name (f : Aggregate) : ofName? f.name = some f := by
  cases f <;> decide

end Aggregate

/-- Which rows are kept where a path crosses a relation. -/
inductive JoinKind where
  | inner | left | right
  deriving DecidableEq, Repr

namespace JoinKind

/-- All kinds. -/
def all : List JoinKind := [.inner, .left, .right]

/-- The keyword of a kind. -/
def keyword : JoinKind → String
  | .inner => "INNER"
  | .left => "LEFT"
  | .right => "RIGHT"

/-- The kind with a keyword, in any letter case. -/
def ofKeyword? (s : String) : Option JoinKind := all.find? fun j => Text.sameWord j.keyword s

/-- The words of a kind. -/
def text (j : JoinKind) : String := j.keyword ++ " JOIN"

theorem ofKeyword?_keyword (j : JoinKind) : ofKeyword? j.keyword = some j := by
  cases j <;> decide

end JoinKind

/-! ## Paths -/

/-- A path to a field: the relations to cross and the field's name. -/
structure Path where
  identifiers : List String
  deriving DecidableEq, Repr

namespace Path

/-- The path that stands for every row inside `COUNT`. -/
def wildcard : Path := ⟨["*"]⟩

def isWildcard (p : Path) : Bool := p.identifiers == ["*"]

/-- The parts of a text between its dots. -/
def splitDots : List Char → List (List Char)
  | [] => [[]]
  | c :: cs =>
      if c = '.' then [] :: splitDots cs
      else
        match splitDots cs with
        | part :: parts => (c :: part) :: parts
        | [] => [[c]]

/-- The path that a dotted text writes. -/
def ofDotted (s : String) : Path := ⟨(splitDots s.toList).map String.ofList⟩

/-- The parts with a dot between neighbours. -/
def joinDots : List (List Char) → List Char
  | [] => []
  | [part] => part
  | part :: parts => part ++ '.' :: joinDots parts

/-- The path with dots between its identifiers. -/
def dotted (p : Path) : String := String.ofList (joinDots (p.identifiers.map String.toList))

/-- The relations that the path crosses. -/
def relations (p : Path) : List String := p.identifiers.dropLast

/-- The name of the field, unless the path is empty. -/
def field? (p : Path) : Option String := p.identifiers.getLast?

end Path

/-! ## Operands -/

/-- A literal value. -/
inductive Literal where
  | string (s : String)
  | integer (n : Int64)
  | float (x : Double)
  | boolean (b : Bool)
  deriving DecidableEq, Repr

namespace Literal

/-- Floats in messages and outlines are positional from `1e-4` up to `1e16`. -/
def layout : Layout := ⟨.up, -4, 15, false⟩

/-- The text of a float. -/
def floatText (x : Double) : String :=
  if x.isFinite then String.ofList (layout.numeral x).chars
  else if x.negative then "-inf" else "inf"

/-- The text of a literal. -/
def text : Literal → String
  | .string s => "'" ++ s ++ "'"
  | .integer n => toString n.toInt
  | .float x => floatText x
  | .boolean true => "true"
  | .boolean false => "false"

/-- The literals have one type and equal values; both zeros of the floats are equal. -/
def sameAs : Literal → Literal → Bool
  | .float x, .float y => x.numEq y
  | l, m => l == m

end Literal

/-- What a comparison compares: a field, a literal, or a function over a group of rows. -/
inductive Operand where
  | path (p : Path)
  | literal (l : Literal)
  | aggregate (f : Aggregate) (p : Path)
  deriving DecidableEq, Repr

namespace Operand

/-- The text of an operand. -/
def text : Operand → String
  | .path p => p.dotted
  | .literal l => l.text
  | .aggregate f p => f.name ++ "(" ++ p.dotted ++ ")"

/-- The operands are the same, literals by `Literal.sameAs`. -/
def sameAs : Operand → Operand → Bool
  | .literal l, .literal m => l.sameAs m
  | a, b => a == b

/-- The lists have the same operands in the same order. -/
def allSame : List Operand → List Operand → Bool
  | [], [] => true
  | a :: as, b :: bs => a.sameAs b && allSame as bs
  | _, _ => false

end Operand

/-! ## Conditions -/

/-- A condition on rows or on groups of rows. A disjunction of nothing and a conjunction of nothing
both put no restriction. Every comparison says how its paths cross relations. -/
inductive Condition where
  | anyOf (children : List Condition)
  | allOf (children : List Condition)
  | compare (left : Operand) (operator : Operator) (right : Operand) (join : JoinKind)
  | isIn (left : Operand) (values : List Operand) (join : JoinKind)
  | between (left low high : Operand) (join : JoinKind)
  | nullTest (left : Operand) (operator : Operator) (join : JoinKind)
  deriving Repr

namespace Condition

/-- Induction over conditions: the two nodes with children have the hypothesis for each child. -/
theorem rec' {P : Condition → Prop}
    (anyOf : ∀ cs, (∀ c ∈ cs, P c) → P (.anyOf cs))
    (allOf : ∀ cs, (∀ c ∈ cs, P c) → P (.allOf cs))
    (compare : ∀ l o r j, P (.compare l o r j))
    (isIn : ∀ l vs j, P (.isIn l vs j))
    (between : ∀ l a b j, P (.between l a b j))
    (nullTest : ∀ l o j, P (.nullTest l o j)) : ∀ c, P c
  | .anyOf cs => anyOf cs fun c _ => rec' anyOf allOf compare isIn between nullTest c
  | .allOf cs => allOf cs fun c _ => rec' anyOf allOf compare isIn between nullTest c
  | .compare l o r j => compare l o r j
  | .isIn l vs j => isIn l vs j
  | .between l a b j => between l a b j
  | .nullTest l o j => nullTest l o j

mutual

/-- The conditions are the same, literals by `Literal.sameAs`. -/
def sameAs : Condition → Condition → Bool
  | .anyOf cs, .anyOf ds => allSame cs ds
  | .allOf cs, .allOf ds => allSame cs ds
  | .compare l o r j, .compare l' o' r' j' => l.sameAs l' && o == o' && r.sameAs r' && j == j'
  | .isIn l vs j, .isIn l' vs' j' => l.sameAs l' && Operand.allSame vs vs' && j == j'
  | .between l a b j, .between l' a' b' j' =>
      l.sameAs l' && a.sameAs a' && b.sameAs b' && j == j'
  | .nullTest l o j, .nullTest l' o' j' => l.sameAs l' && o == o' && j == j'
  | _, _ => false

/-- The lists have the same conditions in the same order. -/
def allSame : List Condition → List Condition → Bool
  | [], [] => true
  | c :: cs, d :: ds => c.sameAs d && allSame cs ds
  | _, _ => false

end

end Condition

/-! ## Queries -/

/-- A query: a condition on rows, a condition on groups, and what to group by. -/
structure Query where
  condition : Condition
  having : Option Condition
  grouping : Option (List Operand)
  deriving Repr

namespace Query

/-- The query that every row satisfies. -/
def neutral : Query := ⟨.anyOf [], none, none⟩

/-- The queries are the same, literals by `Literal.sameAs`. -/
def sameAs (q r : Query) : Bool :=
  q.condition.sameAs r.condition &&
    (match q.having, r.having with
      | none, none => true
      | some c, some d => c.sameAs d
      | _, _ => false) &&
    (match q.grouping, r.grouping with
      | none, none => true
      | some as, some bs => Operand.allSame as bs
      | _, _ => false)

end Query

end FilterQuery
