import FilterQuery.Sql.Dialect
import FilterQuery.Sql.Scope

/-!
# SQL statements

The text of SQL trees. A tree is first laid out as `Piece`s, which are the same in all dialects:
fixed words, identifiers to be quoted, and parameters. `Piece.write` then spells them in a dialect
and numbers the parameters, and `Piece.params` lists their values. `Query.toSql` takes a query all
the way to a statement.
-/

set_option autoImplicit false

namespace FilterQuery.Sql

/-- A part of the text of a statement. -/
inductive Piece where
  | word (s : String)
  | identifier (s : String)
  | param (l : Literal)
  deriving DecidableEq, Repr

namespace Piece

/-- The text of some pieces; the first parameter has the index `index`. -/
def write (d : Dialect) (index : Nat) : List Piece → List Char
  | [] => []
  | .word s :: ps => s.toList ++ write d index ps
  | .identifier s :: ps => d.quote s.toList ++ write d index ps
  | .param _ :: ps => d.placeholder index ++ write d (index + 1) ps

/-- The value of a parameter. -/
def param? : Piece → Option Literal
  | .param l => some l
  | _ => none

/-- The values of the parameters in their order. -/
def params (ps : List Piece) : List Literal := ps.filterMap param?

/-- A name in the table with a label. -/
def qualified (label name : String) : List Piece := [.identifier label, .word ".", .identifier name]

/-- Lists of pieces with a word between neighbours. -/
def separated (separator : String) : List (List Piece) → List Piece
  | [] => []
  | [ps] => ps
  | ps :: pss => ps ++ .word separator :: separated separator pss

end Piece

/-! ## Expressions -/

/-- The pieces of an expression. -/
def Expr.pieces : Expr → List Piece
  | .column c => Piece.qualified c.label c.name
  | .param l => [.param l]
  | .aggregate f e => .word f.name :: .word "(" :: (e.pieces ++ [.word ")"])
  | .aggregateAll f => [.word f.name, .word "(", .word "*", .word ")"]

/-- The pieces of some expressions with commas between them. -/
def Expr.listPieces (es : List Expr) : List Piece := Piece.separated ", " (es.map Expr.pieces)

/-! ## Predicates -/

/-- The SQL spelling of an operator. -/
def operatorWord : Operator → String
  | .ne => "<>"
  | o => o.symbol

namespace Predicate

/-- How tightly a predicate binds. -/
def precedence : Predicate → Nat
  | .or .. => 1
  | .and .. => 2
  | _ => 3

/-- Pieces in parentheses where the predicate binds less tightly than what is around it. -/
def enclose (p : Predicate) (around : Nat) (ps : List Piece) : List Piece :=
  if p.precedence < around then .word "(" :: (ps ++ [.word ")"]) else ps

/-- The pieces of a predicate. -/
def pieces : Predicate → List Piece
  | .always => [.word "1 = 1"]
  | .compare o l r =>
      l.pieces ++ .word " " :: .word (operatorWord o) :: .word " " :: r.pieces
  | .isNull e => e.pieces ++ [.word " IS NULL"]
  | .isNotNull e => e.pieces ++ [.word " IS NOT NULL"]
  | .between e l h => e.pieces ++ .word " BETWEEN " :: (l.pieces ++ .word " AND " :: h.pieces)
  | .isIn e vs => e.pieces ++ .word " IN (" :: (Expr.listPieces vs ++ [.word ")"])
  | .and l r => l.enclose 2 l.pieces ++ .word " AND " :: r.enclose 2 r.pieces
  | .or l r => l.enclose 1 l.pieces ++ .word " OR " :: r.enclose 1 r.pieces

end Predicate

/-! ## Statements -/

/-- The pieces of a join. -/
def Join.pieces (j : Join) : List Piece :=
  .word j.kind.text :: .word " " :: .identifier j.table :: .word " AS " :: .identifier j.label ::
    .word " ON " :: (Piece.qualified j.parentLabel j.localKey ++ .word " = " ::
      Piece.qualified j.label j.foreignKey)

namespace Select

/-- What is selected: the items of the groups, or whole rows. -/
def listPieces (s : Select) : List Piece :=
  if s.grouping = [] then [.word "*"] else Expr.listPieces s.grouping

/-- A clause with a predicate, if there is one. -/
def clausePieces (word : String) : Option Predicate → List Piece
  | some p => .word word :: p.pieces
  | none => []

/-- The clause that groups rows, if they are grouped. -/
def groupingPieces (s : Select) : List Piece :=
  if s.grouping = [] then [] else .word " GROUP BY " :: Expr.listPieces s.grouping

/-- The pieces of a statement. -/
def pieces (s : Select) : List Piece :=
  .word "SELECT " :: (s.listPieces ++ .word " FROM " :: .identifier s.table :: .word " AS " ::
    .identifier s.label :: (s.joins.flatMap (fun j => .word " " :: j.pieces) ++
      clausePieces " WHERE " s.condition ++ s.groupingPieces ++
      clausePieces " HAVING " s.having))

end Select

/-- The text of a statement and the values of its parameters. -/
structure Statement where
  text : String
  params : List Literal
  deriving DecidableEq, Repr

namespace Statement

/-- The statement that some pieces spell in a dialect. -/
def ofPieces (d : Dialect) (ps : List Piece) : Statement :=
  ⟨String.ofList (Piece.write d 0 ps), Piece.params ps⟩

end Statement

end FilterQuery.Sql

namespace FilterQuery

/-- The SQL statement of a query on a schema. -/
def Query.toSql (q : Query) (schema : Sql.Schema) (d : Sql.Dialect) :
    Except ApplyError Sql.Statement :=
  match ((Sql.sqlTarget.apply q).run.run (.ofSchema schema)) with
  | (.error e, _) => .error e
  | (.ok lowered, scope) => .ok (.ofPieces d (scope.select lowered.condition).pieces)

end FilterQuery
