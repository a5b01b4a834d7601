import FilterQuery.Query.OfTree
import FilterQuery.Text.Blank
import FilterQuery.Tree.Parse

/-!
# Queries from text

`Query.ofText` reads a filter query. A blank text is the query that every row satisfies. A text
with errors is rejected with a report of all of them, those of the scanner and those of the parser
in the order of the text.
-/

set_option autoImplicit false

namespace FilterQuery

/-- Why a text is no query. -/
inductive QueryError where
  /-- The text has errors. -/
  | rejected (report : Report)
  /-- The text has no errors, but its tree has no meaning. -/
  | build (e : BuildError)
  deriving DecidableEq, Repr

/-- The wording of an error. -/
def QueryError.message : QueryError → String
  | .rejected report => report.rejection
  | .build e => e.message

namespace Query

/-- The errors of a text, in the order of the text. -/
def problems (s : String) : Report :=
  (Report.ofList ((Scan.errors s).map .lexical)).merge (Tree.parse (Scan.tokens s)).2

/-- The query that a text writes. -/
def ofText (s : String) : Except QueryError Query :=
  if Text.isBlankText s then .ok neutral
  else if (problems s).isEmpty then
    (ofTree (Tree.parse (Scan.tokens s)).1).mapError .build
  else .error (.rejected (problems s))

end Query

end FilterQuery
