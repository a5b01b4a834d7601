import FilterQuery.Query
import FilterQuery.Text.Number
import FilterQuery.Tree

/-!
# Queries from parse trees

`Query.ofTree` gives the meaning of a parse tree. It looks at the lexemes only, so a tree made by
hand may hold words and numbers that mean nothing; then the first of them, in the order condition,
`HAVING`, `GROUP BY`, is reported as a `BuildError`.
-/

set_option autoImplicit false

namespace FilterQuery

/-- What in a parse tree has no meaning. -/
inductive BuildFault where
  | unknownJoin (lexeme : String)
  | unknownOperator (lexeme : String)
  | unknownFunction (lexeme : String)
  | starArgument (function : Aggregate)
  | badDecimal (lexeme : String)
  | badInteger (lexeme : String) (fault : Text.IntegerFault)
  deriving DecidableEq, Repr

/-- The wording of a fault. -/
def BuildFault.message : BuildFault → String
  | .unknownJoin lexeme => "unknown join type '" ++ lexeme ++ "'"
  | .unknownOperator lexeme => "unknown comparison operator '" ++ lexeme ++ "'"
  | .unknownFunction lexeme => "unknown aggregate function '" ++ lexeme ++ "'"
  | .starArgument function => "'*' is not a valid argument for " ++ function.name
  | .badDecimal lexeme => "invalid decimal literal '" ++ lexeme ++ "': invalid float literal"
  | .badInteger lexeme fault =>
      "invalid integer literal '" ++ lexeme ++ "': " ++ fault.message

/-- A fault and the byte offset of its token. -/
structure BuildError where
  fault : BuildFault
  offset : Nat
  deriving DecidableEq, Repr

/-- The wording of an error, with its place. -/
def BuildError.message (e : BuildError) : String :=
  "AST build error at offset " ++ toString e.offset ++ ": " ++ e.fault.message

namespace Tree

/-! ## Words and numbers -/

/-- The kind of join of an optional keyword. -/
def joinKind : Option Token → Except BuildError JoinKind
  | none => .ok .inner
  | some t =>
      match JoinKind.ofKeyword? t.lexeme with
      | some j => .ok j
      | none => .error ⟨.unknownJoin t.lexeme, t.offset⟩

/-- The operator of a token; it has to stand between two operands. -/
def operator (t : Token) : Except BuildError Operator :=
  match (Operator.ofSymbol? t.lexeme).filter Operator.isBinary with
  | some o => .ok o
  | none => .error ⟨.unknownOperator t.lexeme, t.offset⟩

/-- The text without one quote at each end, where there is one. -/
def unquote (cs : List Char) : List Char :=
  let cs := match cs with
    | '\'' :: rest => rest
    | cs => cs
  if cs.getLast? = some '\'' then cs.dropLast else cs

/-- The literal of a string. -/
def string (t : Token) : Literal := .string (String.ofList (unquote t.lexeme.toList))

/-- The literal of a number: a float if it has a point, otherwise an integer. -/
def number (t : Token) : Except BuildError Literal :=
  if '.' ∈ t.lexeme.toList then
    match Text.readDecimal? t.lexeme with
    | some x => .ok (.float x)
    | none => .error ⟨.badDecimal t.lexeme, t.offset⟩
  else
    match Text.readInteger t.lexeme with
    | .ok n => .ok (.integer n)
    | .error fault => .error ⟨.badInteger t.lexeme fault, t.offset⟩

/-! ## Operands -/

/-- The path of some identifiers. -/
def path (p : Path) : FilterQuery.Path := ⟨p.map Token.lexeme⟩

/-- The operand of an aggregate call. -/
def call (c : Call) : Except BuildError Operand :=
  match Aggregate.ofName? c.function.lexeme with
  | none => .error ⟨.unknownFunction c.function.lexeme, c.function.offset⟩
  | some f =>
      match c.argument with
      | some p => .ok (.aggregate f (path p))
      | none =>
          if f = .count then .ok (.aggregate .count .wildcard)
          else .error ⟨.starArgument f, c.function.offset⟩

/-- The operand of a path or a call. -/
def selectable : Selectable → Except BuildError Operand
  | .path p => .ok (.path (path p))
  | .call c => call c

/-- The operand of a value. -/
def value : Value → Except BuildError Operand
  | .path p => .ok (.path (path p))
  | .call c => call c
  | .string t => .ok (.literal (string t))
  | .number t => (number t).map .literal

/-- The operands of a list of values; the first error wins. -/
def values : List Value → Except BuildError (List Operand)
  | [] => .ok []
  | v :: vs => do
      let first ← value v
      let others ← values vs
      return first :: others

/-- The operands of a list of paths and calls; the first error wins. -/
def selectables : List Selectable → Except BuildError (List Operand)
  | [] => .ok []
  | v :: vs => do
      let first ← selectable v
      let others ← selectables vs
      return first :: others

/-! ## Conditions -/

/-- The condition that a test puts on an operand. -/
def test (left : Operand) (join : JoinKind) : Test → Except BuildError Condition
  | .compare t v => do
      let o ← operator t
      let right ← value v
      return .compare left o right join
  | .isIn vs => do
      let vs ← values vs
      return .isIn left vs join
  | .between low high => do
      let low ← value low
      let high ← value high
      return .between left low high join
  | .null => .ok (.nullTest left .isNull join)
  | .notNull => .ok (.nullTest left .isNotNull join)

/-- The condition of a comparison. -/
def comparison (c : Comparison) : Except BuildError Condition := do
  let join ← joinKind c.join
  let left ← selectable c.left
  test left join c.test

mutual

/-- The condition of a term. -/
def primary : Primary → Except BuildError Condition
  | .group inner => (conjunctions inner).map .anyOf
  | .comparison c => comparison c

/-- The conditions of the terms of a conjunction. -/
def primaries : List Primary → Except BuildError (List Condition)
  | [] => .ok []
  | p :: ps => do
      let first ← primary p
      let others ← primaries ps
      return first :: others

/-- The conditions of the conjunctions of a disjunction. -/
def conjunctions : List (List Primary) → Except BuildError (List Condition)
  | [] => .ok []
  | ps :: pss => do
      let first ← primaries ps
      let others ← conjunctions pss
      return .allOf first :: others

end

/-- The condition of a disjunction. -/
def condition (d : Disjunction) : Except BuildError Condition :=
  (conjunctions d).map .anyOf

/-- The condition of a disjunction that may be missing. -/
def condition? : Option Disjunction → Except BuildError (Option Condition)
  | none => .ok none
  | some d => (condition d).map some

/-- The items to group by, which may be missing. -/
def grouping? : Option (List Selectable) → Except BuildError (Option (List Operand))
  | none => .ok none
  | some items => (selectables items).map some

end Tree

/-- The query that a parse tree means. -/
def Query.ofTree (root : Tree.Root) : Except BuildError Query := do
  let condition ← Tree.condition root.condition
  let having ← Tree.condition? root.having
  let grouping ← Tree.grouping? root.grouping
  return ⟨condition, having, grouping⟩

end FilterQuery
