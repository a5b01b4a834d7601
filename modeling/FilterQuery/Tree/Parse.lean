import FilterQuery.Report
import FilterQuery.Text.Number
import FilterQuery.Tree

/-!
# Parsing

From tokens to a parse tree, by recursive descent. Precedence from low to high: `OR`, `AND`,
comparison. Errors are collected in a report, and the parser goes on at the next logical operator,
closing parenthesis or clause keyword, so that one bad comparison does not hide the next.

A production is a `Parser`: it changes the `Parser.State` and gives its result, or `none` after a
complaint. The main definition is `Tree.parse`; its tree counts only if its report is empty.
-/

set_option autoImplicit false

namespace FilterQuery

/-- The deepest nesting of groups that is followed. -/
def maxNesting : Nat := 128

/-! ## Complaints -/

/-- What should have stood at a place. -/
inductive Expectation where
  | operand
  | groupItem
  | operator
  | value
  | segment
  | groupEnd
  | listStart
  | listEnd
  | boundsAnd
  | null
  | callStart
  | callArgument
  | callEnd
  | byWord
  deriving DecidableEq, Repr

/-- The wording of an expectation. -/
def Expectation.message : Expectation → String
  | .operand => "a field path or aggregate function"
  | .groupItem => "a GROUP BY item"
  | .operator => "a comparison operator"
  | .value => "a value"
  | .segment => "an identifier after '.'"
  | .groupEnd => "')'"
  | .listStart => "'(' after IN"
  | .listEnd => "')' to close the IN list"
  | .boundsAnd => "AND between the BETWEEN bounds"
  | .null => "NULL"
  | .callStart => "'(' after the aggregate function"
  | .callArgument => "a field path or '*' as aggregate argument"
  | .callEnd => "')' to close the aggregate function"
  | .byWord => "BY after GROUP"

/-- What is wrong at a token. -/
inductive Complaint where
  /-- Something else was expected here. -/
  | expected (what : Expectation)
  /-- A clause should have ended here. -/
  | unexpected
  /-- The group is nested too deep. -/
  | tooDeep
  /-- The list after `IN` is empty. -/
  | emptyList
  /-- The argument `*` of a function other than `COUNT`. -/
  | starOutsideCount (function : String)
  /-- An aggregate call inside another one. -/
  | nestedCall
  /-- The number fits no 64-bit integer, or no finite double. -/
  | outOfRange
  deriving DecidableEq, Repr

/-- The wording of a complaint about a token. -/
def Complaint.message (found : Token) : Complaint → String
  | .expected what => "expected " ++ what.message ++ ", found " ++ found.describe
  | .unexpected => "unexpected " ++ found.describe
  | .tooDeep =>
      "nesting too deep, at most " ++ toString maxNesting ++ " levels are allowed"
  | .emptyList => "IN requires at least one value"
  | .starOutsideCount function =>
      "'*' is only allowed inside COUNT, not " ++ Text.upper function
  | .nestedCall => "nested aggregate functions are not allowed"
  | .outOfRange => "numeric literal " ++ found.lexeme ++ " is out of range"

/-! ## The state of a parser -/

namespace Parser

/-- Where a parser stands. -/
structure State where
  /-- The tokens that are left before the end mark. -/
  rest : List Token
  /-- The end mark. -/
  stop : Token
  /-- The number of groups that are open. -/
  depth : Nat
  report : Report
  deriving DecidableEq, Repr

namespace State

/-- The token at hand; at the end, the end mark again and again. -/
def next (s : State) : Token := s.rest.headD s.stop

/-- The kind of the token after the one at hand. -/
def secondKind (s : State) : Kind :=
  match s.rest with
  | _ :: t :: _ => t.kind
  | _ => .eof

/-- The state after the token at hand. -/
def advance (s : State) : State := { s with rest := s.rest.tail }

/-- The state after a complaint about a token. -/
def complain (s : State) (t : Token) (c : Complaint) : State :=
  { s with report := s.report.addSyntax (.atToken t (c.message t)) }

/-- An aggregate call starts here. -/
def atCall (s : State) : Bool := s.next.kind.isAggregate && s.secondKind == .leftParen

/-- A path starts here. -/
def atPath (s : State) : Bool := s.next.kind == .identifier || s.next.kind.isAggregate

end State

end Parser

/-- A production: it reads tokens and gives a result. -/
abbrev Parser := StateM Parser.State

namespace Parser

/-- Productions run one after the other. -/
theorem run_bind {α β : Type} (p : Parser α) (f : α → Parser β) (s : State) :
    (p >>= f).run s = (f (p.run s).1).run (p.run s).2 := rfl

/-! ## Steps -/

/-- Whether the token at hand has a kind. -/
def sees (k : Kind) : Parser Bool := fun s => (s.next.kind == k, s)

/-- Takes the token at hand. -/
def advance : Parser Token := fun s => (s.next, s.advance)

/-- Takes the token at hand if it has a kind, and tells whether it has. -/
def eat (k : Kind) : Parser Bool := fun s =>
  if s.next.kind = k then (true, s.advance) else (false, s)

/-- Complains about the token at hand. -/
def complain (c : Complaint) : Parser Unit := fun s => ((), s.complain s.next c)

/-- Takes the token at hand if it has a kind, otherwise complains. -/
def expect (k : Kind) (what : Expectation) : Parser Bool := do
  if ← eat k then return true
  complain (.expected what)
  return false

/-- Skips to the next token of one of the kinds, or to the end. -/
def skipUntil (stops : List Kind) : Parser Unit := fun s =>
  ((), { s with rest := s.rest.dropWhile fun t => t.kind ∉ stops })

/-- Skips to where a surrounding production can go on. -/
def synchronize : Parser Unit := skipUntil [.and, .or, .rightParen, .group, .having]

/-- The tokens after the parenthesis that closes the current group, when `depth` groups have been
opened inside it. Nothing is left if it is never closed. -/
def afterGroup : Nat → List Token → List Token
  | _, [] => []
  | depth, t :: ts =>
      if t.kind = .leftParen then afterGroup (depth + 1) ts
      else if t.kind = .rightParen then
        match depth with
        | 0 => ts
        | depth + 1 => afterGroup depth ts
      else afterGroup depth ts

/-- Skips past the parenthesis that closes the current group or call. -/
def skipGroup : Parser Unit := fun s => ((), { s with rest := afterGroup 0 s.rest })

/-- Complains about a token that is left where a clause should end, and skips to the next token of
one of the kinds. -/
def skipUnexpected (stops : List Kind) : Parser Unit := fun s =>
  if s.next.kind = .eof ∨ s.next.kind ∈ stops then ((), s)
  else (skipUntil stops).run (s.complain s.next .unexpected)

/-- Items with separators between them; an item that fails is left out. The bound on the number
of items is one more than the number of tokens, so it is never met. -/
def chain {α : Type} (separator : Kind) (item : Parser (Option α)) : Nat → Parser (List α)
  | 0 => return []
  | fuel + 1 => do
      let first ← item
      if ← eat separator then
        let others ← chain separator item fuel
        return first.toList ++ others
      else
        return first.toList

/-- Items with separators between them, as many as there are. -/
def separated {α : Type} (separator : Kind) (item : Parser (Option α)) : Parser (List α) :=
  fun s => (chain separator item (s.rest.length + 1)).run s

/-! ## Paths and calls -/

/-- The kinds that may follow a dot. -/
def isSegment (k : Kind) : Bool := k == .identifier || k.isKeyword

/-- The identifiers after the first one of a path, whether every dot is followed by one, and the
tokens after them. -/
def segments : List Token → List Token × Bool × List Token
  | dot :: t :: ts =>
      if dot.kind ≠ .dot then ([], true, dot :: t :: ts)
      else if isSegment t.kind then
        let (path, complete, rest) := segments ts
        (t :: path, complete, rest)
      else ([], false, t :: ts)
  | [t] => if t.kind = .dot then ([], false, []) else ([], true, [t])
  | [] => ([], true, [])

/-- A path: an identifier and further ones, which may be keywords, each after a dot. -/
def path : Parser (Option Tree.Path) := do
  let first ← advance
  let complete ← fun s =>
    let (path, complete, rest) := segments s.rest
    ((path, complete), { s with rest })
  if complete.2 then return some (first :: complete.1)
  complain (.expected .segment)
  return none

/-- The closing parenthesis of a call. -/
def callEnd (function : Token) (argument : Option Tree.Path) : Parser (Option Tree.Call) := do
  if ← expect .rightParen .callEnd then return some ⟨function, argument⟩
  return none

/-- Complains about the argument of a call and skips the rest of the call. -/
def badArgument (c : Complaint) : Parser (Option Tree.Call) := do
  complain c
  skipGroup
  return none

/-- The argument of a call: a path, or `*` in a call of `COUNT`. -/
def callArgument (function : Token) : Parser (Option Tree.Call) := fun s =>
  if s.next.kind = .star then
    if function.kind = .count then (callEnd function none).run s.advance
    else (badArgument (.starOutsideCount function.lexeme)).run s
  else if s.atCall then (badArgument .nestedCall).run s
  else if s.atPath then
    match path.run s with
    | (some p, s) => (callEnd function (some p)).run s
    | (none, s) => (none, s)
  else (badArgument (.expected .callArgument)).run s

/-- An aggregate call. -/
def call : Parser (Option Tree.Call) := do
  let function ← advance
  if ← expect .leftParen .callStart then callArgument function
  else return none

/-- A path or an aggregate call. -/
def selectable (what : Expectation) : Parser (Option Tree.Selectable) := fun s =>
  if s.atCall then ((·.map .call) <$> call).run s
  else if s.atPath then ((·.map .path) <$> path).run s
  else (none, s.complain s.next (.expected what))

/-! ## Values -/

/-- A whole number fits a 64-bit integer; a number with a point, a finite double. -/
def inRange (lexeme : String) : Bool :=
  if '.' ∈ lexeme.toList then
    match Text.readDecimal? lexeme with
    | some x => x.isFinite
    | none => false
  else
    match Text.readInteger lexeme with
    | .ok _ => true
    | .error _ => false

/-- A number; one that is out of range is kept after the complaint. -/
def number : Parser (Option Tree.Value) := fun s =>
  let t := s.next
  let s := s.advance
  (some (.number t), if inRange t.lexeme then s else s.complain t .outOfRange)

/-- A value to compare with. -/
def value : Parser (Option Tree.Value) := fun s =>
  if s.next.kind = .string then (some (.string s.next), s.advance)
  else if s.next.kind = .number then number.run s
  else if s.atCall then ((·.map .call) <$> call).run s
  else if s.atPath then ((·.map .path) <$> path).run s
  else (none, s.complain s.next (.expected .value))

/-- The values of a list with commas between them; one that fails ends the list. The bound is one
more than the number of tokens, so it is never met. -/
def values : Nat → Parser (Option (List Tree.Value))
  | 0 => return none
  | fuel + 1 => do
      let some first ← value | return none
      if ← eat .comma then
        let some others ← values fuel | return none
        return some (first :: others)
      else
        return some [first]

/-- The list after `IN`, in parentheses. -/
def list : Parser (Option (List Tree.Value)) := do
  if !(← expect .leftParen .listStart) then return none
  if ← sees .rightParen then
    complain .emptyList
    return none
  let some vs ← fun s => (values (s.rest.length + 1)).run s | return none
  if ← expect .rightParen .listEnd then return some vs
  return none

/-! ## Comparisons -/

/-- The bounds after `BETWEEN`. -/
def bounds : Parser (Option Tree.Test) := do
  let some low ← value | return none
  if ← expect .and .boundsAnd then
    let some high ← value | return none
    return some (.between low high)
  else
    return none

/-- The words after `IS`. -/
def nullTest : Parser (Option Tree.Test) := do
  let negated ← eat .not
  if ← expect .null .null then
    return some (if negated then .notNull else .null)
  else
    return none

/-- What a comparison asks of its left side. -/
def test : Parser (Option Tree.Test) := fun s =>
  if s.next.kind.isComparison then
    ((·.map (.compare s.next)) <$> value).run s.advance
  else if s.next.kind = .isIn then ((·.map .isIn) <$> list).run s.advance
  else if s.next.kind = .between then bounds.run s.advance
  else if s.next.kind = .is then nullTest.run s.advance
  else (none, s.complain s.next (.expected .operator))

/-- The keyword of a join, if one stands here. -/
def joinWord : Parser (Option Token) := fun s =>
  if s.next.kind = .left ∨ s.next.kind = .right then (some s.next, s.advance) else (none, s)

/-- A comparison, with the keyword of a join before it. -/
def comparison : Parser (Option Tree.Comparison) := do
  let join ← joinWord
  let some left ← selectable .operand | return none
  let some test ← test | return none
  return some ⟨join, left, test⟩

/-! ## Conditions -/

/-- A group too deep to follow is skipped. -/
def skipDeepGroup : Parser (Option Tree.Primary) := do
  complain .tooDeep
  let _ ← advance
  skipGroup
  return none

/-- A group in parentheses; `inner` reads what stands between them, one level deeper. -/
def group (inner : Parser Tree.Disjunction) : Parser (Option Tree.Primary) := do
  let _ ← advance
  modify fun s => { s with depth := s.depth + 1 }
  let condition ← inner
  modify fun s => { s with depth := s.depth - 1 }
  if ← expect .rightParen .groupEnd then return some (.group condition)
  return none

/-- A comparison as a term; after a failure the parser looks for a place to go on. -/
def comparisonTerm : Parser (Option Tree.Primary) := do
  let some c ← comparison | do
    synchronize
    return none
  return some (.comparison c)

/-- A term of a conjunction. -/
def primary (inner : Parser Tree.Disjunction) : Parser (Option Tree.Primary) := fun s =>
  if s.next.kind = .leftParen then
    if s.depth = maxNesting then skipDeepGroup.run s else (group inner).run s
  else comparisonTerm.run s

/-- Terms joined by `AND`. -/
def conjunction (inner : Parser Tree.Disjunction) : Parser Tree.Conjunction :=
  separated .and (primary inner)

/-- Conjunctions joined by `OR`; `levels` bounds how many groups may be opened inside each other.
One more than `maxNesting` is enough, because deeper groups are skipped. -/
def disjunctionWithin : Nat → Parser Tree.Disjunction
  | 0 => return []
  | levels + 1 => separated .or (some <$> conjunction (disjunctionWithin levels))

/-- Conjunctions joined by `OR`. -/
def disjunction : Parser Tree.Disjunction := disjunctionWithin (maxNesting + 1)

/-! ## Queries -/

/-- An item to group by; after a failure the parser goes on at the next one. -/
def groupItem : Parser (Option Tree.Selectable) := do
  let some item ← selectable .groupItem | do
    skipUntil [.comma, .having]
    return none
  return some item

/-- The clause that starts with `GROUP`. -/
def groupBy : Parser (List Tree.Selectable) := do
  let _ ← advance
  if ← expect .by .byWord then separated .comma groupItem
  else
    skipUntil [.having]
    return []

/-- The clause that starts with `GROUP`, if it stands here. -/
def groupByClause : Parser (Option (List Tree.Selectable)) := do
  if ← sees .group then
    let items ← groupBy
    skipUnexpected [.having]
    return some items
  else
    return none

/-- The clause that starts with `HAVING`, if it stands here. -/
def havingClause : Parser (Option Tree.Disjunction) := do
  if ← eat .having then
    let condition ← disjunction
    skipUnexpected []
    return some condition
  else
    return none

/-- A whole query. -/
def root : Parser Tree.Root := do
  let condition ← disjunction
  skipUnexpected [.group, .having]
  let grouping ← groupByClause
  let having ← havingClause
  return ⟨condition, grouping, having⟩

/-! ## Starting -/

/-- The end mark for tokens that have none: it stands after the last token. -/
def endAfter (tokens : List Token) : Token :=
  match tokens.getLast? with
  | some t =>
      let n := t.lexeme.utf8ByteSize
      .eof ⟨t.offset + n, t.line, t.column + n⟩
  | none => .eof .start

/-- The state before some tokens, which end at their first end mark. -/
def State.ofTokens (tokens : List Token) : State where
  rest := tokens.takeWhile (·.kind ≠ .eof)
  stop := (tokens.find? (·.kind = .eof)).getD (endAfter tokens)
  depth := 0
  report := .empty

end Parser

/-- The parse tree of some tokens and the errors found in them. -/
def Tree.parse (tokens : List Token) : Tree.Root × Report :=
  let (root, s) := Parser.root.run (.ofTokens tokens)
  (root, s.report)

end FilterQuery
