import FilterQuery.Query

/-!
# Targets

Where queries are lowered to. A `Target` is an interface: it resolves fields, makes expressions and
conditions out of smaller ones, and takes the conditions and expressions on groups. It has a state,
which every operation may change. `Target.apply` lowers a query by calling these operations in the
order of the query and by nothing else; its own errors are operators that stand in the wrong kind
of comparison and a `*` outside `COUNT`.
-/

set_option autoImplicit false

namespace FilterQuery

/-! ## Errors -/

/-- What a target refuses. -/
inductive TargetError where
  | unknownField (path : String)
  | unknownRelation (owner relation : String)
  | unsupported (what : String)
  deriving DecidableEq, Repr

/-- The wording of a refusal. -/
def TargetError.message : TargetError → String
  | .unknownField path => "Unknown field: " ++ path
  | .unknownRelation owner relation =>
      "Unknown relation '" ++ relation ++ "' on '" ++ owner ++ "'"
  | .unsupported what => "Unsupported by backend: " ++ what

/-- The comparisons that allow only some operators. -/
inductive OperatorPlace where
  | binary
  | nullTest
  deriving DecidableEq, Repr

/-- A comparison as messages name it. -/
def OperatorPlace.text : OperatorPlace → String
  | .binary => "a binary comparison"
  | .nullTest => "a null check"

/-- Why a query cannot be lowered. -/
inductive ApplyError where
  | unsupportedOperator (operator : Operator) (place : OperatorPlace)
  | misplacedWildcard
  | target (e : TargetError)
  deriving DecidableEq, Repr

/-- The wording of an error. -/
def ApplyError.message : ApplyError → String
  | .unsupportedOperator operator place =>
      "Operator " ++ operator.symbol ++ " is not supported in " ++ place.text
  | .misplacedWildcard => "Wildcard '*' is only allowed inside COUNT(...)"
  | .target e => e.message

/-! ## The interface -/

/-- The operations of a target with states `σ`, expressions `ε` and conditions `κ`. -/
structure Target (σ ε κ : Type) where
  /-- The field at the end of a path, whose relations are crossed with the given join. -/
  field : Path → JoinKind → StateM σ (Except TargetError ε)
  literal : Literal → StateM σ ε
  /-- A function over the rows of a group, applied to an expression or, without one, to the rows
  themselves. -/
  aggregate : Aggregate → Option ε → StateM σ (Except TargetError ε)
  compare : Operator → ε → ε → StateM σ κ
  isNull : ε → StateM σ κ
  isNotNull : ε → StateM σ κ
  between : ε → ε → ε → StateM σ κ
  isIn : ε → List ε → StateM σ κ
  both : κ → κ → StateM σ κ
  either : κ → κ → StateM σ κ
  /-- The condition that every row satisfies. -/
  always : StateM σ κ
  groupBy : List ε → StateM σ Unit
  having : κ → StateM σ Unit

/-- A step of lowering: it may fail, and keeps the state that it has reached. -/
abbrev Lowering (σ : Type) := ExceptT ApplyError (StateM σ)

namespace Lowering

variable {σ α β : Type}

/-- A failing step ends the lowering with its error and its state. -/
theorem run_bind (x : Lowering σ α) (f : α → Lowering σ β) (s : σ) :
    (x >>= f).run.run s =
      match x.run.run s with
      | (.ok a, s) => (f a).run.run s
      | (.error e, s) => (.error e, s) := by
  show (ExceptT.bind x f) s = _
  simp only [ExceptT.bind, ExceptT.mk, bind, StateT.bind, ExceptT.run, StateT.run]
  rcases x s with ⟨a | a, s'⟩ <;> rfl

/-- A lowering succeeds in two parts. -/
theorem run_bind_ok {x : Lowering σ α} {f : α → Lowering σ β} {s s' : σ} {b : β}
    (h : (x >>= f).run.run s = (.ok b, s')) :
    ∃ a s₁, x.run.run s = (.ok a, s₁) ∧ (f a).run.run s₁ = (.ok b, s') := by
  rw [run_bind] at h
  split at h
  · exact ⟨_, _, ‹_›, h⟩
  · cases h

/-- An operation of the target that cannot fail. -/
def step (x : StateM σ α) : Lowering σ α := fun s => (.ok (x s).1, (x s).2)

/-- An operation of the target that may fail. -/
def attempt (x : StateM σ (Except TargetError α)) : Lowering σ α := fun s =>
  match x s with
  | (.ok a, s) => (.ok a, s)
  | (.error e, s) => (.error (.target e), s)

/-- A failure of the lowering itself. -/
def fail (e : ApplyError) : Lowering σ α := fun s => (.error e, s)

end Lowering

namespace Target

variable {σ ε κ : Type} (t : Target σ ε κ)

/-! ## Operands -/

/-- The expression of a function over a path; only `COUNT` takes `*`. -/
def lowerAggregate (f : Aggregate) (p : Path) (j : JoinKind) : Lowering σ ε :=
  if p.isWildcard then
    if f = .count then .attempt (t.aggregate .count none) else .fail .misplacedWildcard
  else do
    let e ← Lowering.attempt (t.field p j)
    .attempt (t.aggregate f (some e))

/-- The expression of an operand. -/
def lowerOperand (j : JoinKind) : Operand → Lowering σ ε
  | .path p => if p.isWildcard then .fail .misplacedWildcard else .attempt (t.field p j)
  | .literal l => .step (t.literal l)
  | .aggregate f p => t.lowerAggregate f p j

/-- The expressions of some operands, from left to right. -/
def lowerOperands (j : JoinKind) : List Operand → Lowering σ (List ε)
  | [] => pure []
  | o :: os => do
      let first ← t.lowerOperand j o
      let others ← lowerOperands j os
      return first :: others

/-! ## Conditions -/

/-- A comparison of two operands. The operator is looked at before the operands. -/
def lowerCompare (l : Operand) (o : Operator) (r : Operand) (j : JoinKind) : Lowering σ κ :=
  if o.isBinary then do
    let left ← t.lowerOperand j l
    let right ← t.lowerOperand j r
    .step (t.compare o left right)
  else .fail (.unsupportedOperator o .binary)

/-- A comparison with a list. -/
def lowerIsIn (l : Operand) (vs : List Operand) (j : JoinKind) : Lowering σ κ := do
  let left ← t.lowerOperand j l
  let values ← t.lowerOperands j vs
  .step (t.isIn left values)

/-- A comparison with two bounds. -/
def lowerBetween (l a b : Operand) (j : JoinKind) : Lowering σ κ := do
  let left ← t.lowerOperand j l
  let low ← t.lowerOperand j a
  let high ← t.lowerOperand j b
  .step (t.between left low high)

/-- A null test. The operator is looked at after the operand. -/
def lowerNullTest (l : Operand) (o : Operator) (j : JoinKind) : Lowering σ κ := do
  let e ← t.lowerOperand j l
  match o with
  | .isNull => .step (t.isNull e)
  | .isNotNull => .step (t.isNotNull e)
  | o => .fail (.unsupportedOperator o .nullTest)

mutual

/-- The condition of a node. The children of a node are combined two by two from the left; a node
without children is the condition that every row satisfies. -/
def lower : Condition → Lowering σ κ
  | .anyOf [] => .step t.always
  | .anyOf (c :: cs) => do
      let first ← lower c
      lowerRest t.either first cs
  | .allOf [] => .step t.always
  | .allOf (c :: cs) => do
      let first ← lower c
      lowerRest t.both first cs
  | .compare l o r j => t.lowerCompare l o r j
  | .isIn l vs j => t.lowerIsIn l vs j
  | .between l a b j => t.lowerBetween l a b j
  | .nullTest l o j => t.lowerNullTest l o j

/-- Combines a condition with the conditions of some nodes, from left to right. -/
def lowerRest (combine : κ → κ → StateM σ κ) (first : κ) : List Condition → Lowering σ κ
  | [] => pure first
  | c :: cs => do
      let next ← lower c
      let both ← Lowering.step (combine first next)
      lowerRest combine both cs

end

/-! ## Queries -/

/-- What a query has become. -/
structure Lowered (ε κ : Type) where
  condition : κ
  having : κ
  grouping : List ε
  deriving DecidableEq, Repr

/-- Lowers the condition on groups, if there is one, and hands it to the target. -/
def lowerHaving : Option Condition → Lowering σ (Option κ)
  | none => pure none
  | some c => do
      let having ← t.lower c
      let _ ← Lowering.step (t.having having)
      return some having

/-- Lowers the items to group by, if there are any, and hands them to the target. -/
def lowerGrouping : Option (List Operand) → Lowering σ (List ε)
  | none => pure []
  | some [] => pure []
  | some (o :: os) => do
      let items ← t.lowerOperands .inner (o :: os)
      let _ ← Lowering.step (t.groupBy items)
      return items

/-- The condition on groups, or the one that every group satisfies. -/
def orAlways : Option κ → Lowering σ κ
  | some having => pure having
  | none => .step t.always

/-- Lowers a query: its condition, the condition on groups, and the items to group by. Where there
is no condition on groups, the one that every group satisfies is made last. -/
def apply (q : Query) : Lowering σ (Lowered ε κ) := do
  let condition ← t.lower q.condition
  let having ← t.lowerHaving q.having
  let grouping ← t.lowerGrouping q.grouping
  let having ← t.orAlways having
  return ⟨condition, having, grouping⟩

end Target

end FilterQuery
