import FilterQuery.Decimal

/-!
# SQL dialects

Two dialects, which differ in how identifiers are quoted and how parameters are marked
(`Dialect.quote`, `Dialect.placeholder`). A quote character inside an identifier is written twice.
-/

set_option autoImplicit false

namespace FilterQuery.Sql

/-- The SQL of a database system. -/
inductive Dialect where
  | postgres
  | mysql
  deriving DecidableEq, Repr

namespace Dialect

/-- The name of the database system. -/
def name : Dialect → String
  | .postgres => "PostgreSQL"
  | .mysql => "MySQL"

/-- The character around identifiers. -/
def quoteChar : Dialect → Char
  | .postgres => '"'
  | .mysql => '`'

/-- The text with the character `q` written twice wherever it stands. -/
def double (q : Char) : List Char → List Char
  | [] => []
  | c :: cs => if c = q then q :: q :: double q cs else c :: double q cs

/-- A quoted identifier. -/
def quote (d : Dialect) (identifier : List Char) : List Char :=
  d.quoteChar :: (double d.quoteChar identifier ++ [d.quoteChar])

/-- The mark of the parameter with an index, counted from zero. -/
def placeholder (d : Dialect) (index : Nat) : List Char :=
  match d with
  | .postgres => '$' :: Decimal.text (index + 1)
  | .mysql => ['?']

end Dialect

end FilterQuery.Sql
