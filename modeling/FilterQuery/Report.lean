import FilterQuery.Token.Scan

/-!
# Reports

The errors found in one query. A `Problem` is an error of the scanner or of the parser. A `Report`
collects them in the order in which they are found; of several parser errors at one place only
the first is kept (`Report.addSyntax`), and `Report.merge` puts two reports together in the order
of the text.
-/

set_option autoImplicit false

namespace FilterQuery

/-- A place where the tokens do not form a query. -/
structure SyntaxError extends Position where
  message : String
  /-- The lexeme of the token at that place. -/
  found : String
  deriving DecidableEq, Repr

namespace SyntaxError

/-- An error at a token. -/
def atToken (t : Token) (message : String) : SyntaxError :=
  { t.toPosition with message, found := t.lexeme }

/-- The wording of an error, with its place. -/
def fullMessage (e : SyntaxError) : String :=
  "Syntax error at line " ++ toString e.line ++ ", column " ++ toString e.column ++ ": " ++
    e.message

end SyntaxError

/-- An error of the scanner or of the parser. -/
inductive Problem where
  | lexical (e : LexError)
  | grammatical (e : SyntaxError)
  deriving DecidableEq, Repr

namespace Problem

/-- The byte offset of a problem. -/
def offset : Problem → Nat
  | .lexical e => e.offset
  | .grammatical e => e.offset

/-- The wording of a problem, with its place. -/
def message : Problem → String
  | .lexical e => e.message
  | .grammatical e => e.fullMessage

/-- The problem is a parser error at the given offset. -/
def isGrammaticalAt (offset : Nat) : Problem → Bool
  | .lexical _ => false
  | .grammatical e => e.offset == offset

end Problem

/-- The problems found so far. -/
structure Report where
  problems : List Problem
  deriving DecidableEq, Repr

namespace Report

def empty : Report := ⟨[]⟩

def isEmpty (r : Report) : Bool := r.problems.isEmpty

def size (r : Report) : Nat := r.problems.length

/-- Appends a problem. -/
def add (r : Report) (p : Problem) : Report := ⟨r.problems ++ [p]⟩

/-- The report of some problems in the order given. -/
def ofList (ps : List Problem) : Report := ⟨ps⟩

/-- Whether a parser error at this offset is in the report already. -/
def hasSyntaxAt (r : Report) (offset : Nat) : Bool :=
  r.problems.any (Problem.isGrammaticalAt offset)

/-- Appends a parser error unless there is one at its offset already. -/
def addSyntax (r : Report) (e : SyntaxError) : Report :=
  if r.hasSyntaxAt e.offset then r else r.add (.grammatical e)

/-- Offers a parser error: whether it was appended, and the report with it. -/
def offer (r : Report) (e : SyntaxError) : Bool × Report := (!r.hasSyntaxAt e.offset, r.addSyntax e)

/-- Both reports together, sorted by offset; problems at one offset keep their order, those of the
first report first. -/
def merge (r s : Report) : Report :=
  ⟨(r.problems ++ s.problems).mergeSort fun p q => p.offset ≤ q.offset⟩

/-- The wording of all problems, one to a line. -/
def message (r : Report) : String :=
  if r.isEmpty then "No syntax errors"
  else "\n".intercalate (r.problems.map Problem.message)

/-- The wording of a rejection for these problems. -/
def rejection (r : Report) : String :=
  "Query rejected with " ++ toString r.size ++ " error(s):\n" ++ r.message

end Report

end FilterQuery
