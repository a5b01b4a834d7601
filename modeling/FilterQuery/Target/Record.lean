import FilterQuery.Target

/-!
# Records of calls

A target that keeps a record of the operations asked of it. An expression or a condition is the
number of the call that has made it, so the record shows where every value goes. `Refusals` say
which fields and functions the target refuses, after it has recorded the call.
-/

set_option autoImplicit false

namespace FilterQuery

/-- An operation of a target with its arguments. -/
inductive Call (ε κ : Type) where
  | field (path : Path) (join : JoinKind)
  | literal (value : Literal)
  | aggregate (function : Aggregate) (argument : Option ε)
  | compare (operator : Operator) (left right : ε)
  | isNull (e : ε)
  | isNotNull (e : ε)
  | between (e low high : ε)
  | isIn (e : ε) (values : List ε)
  | both (left right : κ)
  | either (left right : κ)
  | always
  | groupBy (items : List ε)
  | having (condition : κ)
  deriving DecidableEq, Repr

/-- What a target refuses, and with which error. -/
structure Refusals where
  field : Path → Option TargetError
  aggregate : Aggregate → Option TargetError

namespace Refusals

/-- Nothing is refused. -/
def none : Refusals := ⟨fun _ => .none, fun _ => .none⟩

/-- The first relation of a path that is not known, with the relations before it as its owner. -/
def unknownRelation? (unknown : List String) (before : List String) :
    List String → Option TargetError
  | [] => .none
  | r :: rs =>
      if r ∈ unknown then some (.unknownRelation (Path.dotted ⟨before⟩) r)
      else unknownRelation? unknown (before ++ [r]) rs

/-- Refuses some fields, given by their dotted path, some relations and some functions. The empty
path is always refused. -/
def ofNames (fields relations functions : List String) : Refusals where
  field p :=
    match unknownRelation? relations [] p.relations with
    | some e => some e
    | .none =>
        if p.identifiers = [] ∨ p.dotted ∈ fields then some (.unknownField p.dotted) else .none
  aggregate f := if f.name ∈ functions then some (.unsupported f.name) else .none

end Refusals

namespace Target

/-- The calls so far. -/
abbrev Record := List (Call Nat Nat)

/-- Adds a call, and gives its number. -/
def note (c : Call Nat Nat) : StateM Record Nat := fun calls => (calls.length, calls ++ [c])

/-- Adds a call, which may be refused, and gives its number. -/
def noteUnless (refusal : Option TargetError) (c : Call Nat Nat) :
    StateM Record (Except TargetError Nat) := fun calls =>
  (match refusal with
    | some e => .error e
    | none => .ok calls.length, calls ++ [c])

/-- The target that records its calls. -/
def recorder (refuse : Refusals) : Target Record Nat Nat where
  field p j := noteUnless (refuse.field p) (.field p j)
  literal l := note (.literal l)
  aggregate f e := noteUnless (refuse.aggregate f) (.aggregate f e)
  compare o l r := note (.compare o l r)
  isNull e := note (.isNull e)
  isNotNull e := note (.isNotNull e)
  between e l h := note (.between e l h)
  isIn e vs := note (.isIn e vs)
  both l r := note (.both l r)
  either l r := note (.either l r)
  always := note .always
  groupBy es := do let _ ← note (.groupBy es)
  having c := do let _ ← note (.having c)

end Target

end FilterQuery
