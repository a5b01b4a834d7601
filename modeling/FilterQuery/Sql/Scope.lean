import FilterQuery.Sql.Predicate
import FilterQuery.Sql.Schema
import FilterQuery.Target

/-!
# Scopes

The tables that a statement draws on, as they come up while a query is lowered. Paths start at the
root table, which has the label `t0`. Every relation that is crossed for the first time, from the
table with a given label, is joined under the next label `t1`, `t2`, …; crossed again, its join is
used again (`Scope.cross`). `sqlTarget` is the target that lowers queries into predicates with such
a scope as its state, and `Scope.select` puts the statement together.
-/

set_option autoImplicit false

namespace FilterQuery.Sql

/-- The label of the `n`-th join. -/
def labelOf (n : Nat) : String := String.ofList ('t' :: Decimal.text n)

/-- The label of the root table. -/
def rootLabel : String := labelOf 0

/-- A join and the name of the relation it crosses. -/
structure Crossing where
  relation : String
  join : Join
  deriving DecidableEq, Repr

/-- What has come up so far. -/
structure Scope where
  schema : Schema
  /-- The joins in the order in which they came up. -/
  crossings : List Crossing
  grouping : List Expr
  having : Option Predicate
  deriving DecidableEq, Repr

namespace Scope

/-- Nothing has come up yet. -/
def ofSchema (schema : Schema) : Scope := ⟨schema, [], [], none⟩

/-- The joins in the order in which they came up. -/
def joins (s : Scope) : List Join := s.crossings.map Crossing.join

/-- The crossing of a relation from the table with a label. -/
def crossing? (s : Scope) (parent relation : String) : Option Crossing :=
  s.crossings.find? fun c => c.join.parentLabel == parent && c.relation == relation

/-- Crosses a relation from the table with a label, and gives the label of the other table. -/
def cross (s : Scope) (kind : JoinKind) (parent name : String) (r : Relation) : String × Scope :=
  match s.crossing? parent name with
  | some c => (c.join.label, s)
  | none =>
      let label := labelOf (s.crossings.length + 1)
      (label, { s with crossings := s.crossings ++
        [⟨name, ⟨kind, r.table, label, parent, r.localKey, r.foreignKey⟩⟩] })

/-- Crosses relations one after the other, starting from the table with the given name and label.
Gives the name and the label of the last table. A relation that is not known stops the walk; the
joins made before it stay. -/
def walk (kind : JoinKind) (table label : String) :
    List String → Scope → Except TargetError (String × String) × Scope
  | [], s => (.ok (table, label), s)
  | name :: names, s =>
      match s.schema.relation? table name with
      | none => (.error (.unknownRelation table name), s)
      | some r =>
          let (label, s) := s.cross kind label name r
          walk kind r.table label names s

/-- The column at the end of a path. -/
def resolve (path : Path) (kind : JoinKind) (s : Scope) : Except TargetError Expr × Scope :=
  match path.field? with
  | none => (.error (.unknownField path.dotted), s)
  | some field =>
      match walk kind s.schema.root rootLabel path.relations s with
      | (.error e, s) => (.error e, s)
      | (.ok (table, label), s) =>
          match s.schema.table? table with
          | some t =>
              if t.hasColumn field then (.ok (.column ⟨label, field⟩), s)
              else (.error (.unknownField path.dotted), s)
          | none => (.error (.unknownField path.dotted), s)

/-- A function over an expression, or over rows, which only `COUNT` allows. -/
def aggregate (f : Aggregate) : Option Expr → Except TargetError Expr
  | some e => .ok (.aggregate f e)
  | none =>
      if f = .count then .ok (.aggregateAll .count)
      else .error (.unsupported (f.name ++ "(*)"))

/-- The statement for a condition in this scope. A condition that every row satisfies is left
out. -/
def select (s : Scope) (condition : Predicate) : Select where
  table := s.schema.root
  label := rootLabel
  joins := s.joins
  condition := if condition = .always then none else some condition
  grouping := s.grouping
  having := s.having

end Scope

/-- The target that makes SQL trees. -/
def sqlTarget : Target Scope Expr Predicate where
  field path kind := Scope.resolve path kind
  literal l := pure (.param l)
  aggregate f e := pure (Scope.aggregate f e)
  compare o l r := pure (.compare o l r)
  isNull e := pure (.isNull e)
  isNotNull e := pure (.isNotNull e)
  between e l h := pure (.between e l h)
  isIn e vs := pure (.isIn e vs)
  both l r := pure (.and l r)
  either l r := pure (.or l r)
  always := pure .always
  groupBy es := fun s => ((), { s with grouping := es })
  having p := fun s => ((), { s with having := some p })

end FilterQuery.Sql
