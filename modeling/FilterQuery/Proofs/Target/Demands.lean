import FilterQuery.Proofs.Outcome
import FilterQuery.Target

/-!
# What a query demands of a target

Lowering can fail only where a target is asked for a field, where an operator stands in the wrong
kind of comparison, and where a `*` stands outside `COUNT`. `Query.demands` lists these places in
the order in which lowering comes to them. For a target that refuses fields by their paths alone,
and nothing else, the first demand that cannot be met decides how the run of a query ends
(`Target.Answers.apply`).
-/

set_option autoImplicit false

namespace FilterQuery

/-! ## Demands -/

/-- A place where lowering may fail. -/
inductive Demand where
  /-- A field is asked for. -/
  | field (p : Path)
  /-- Nothing that could be lowered. -/
  | fault (e : ApplyError)
  deriving DecidableEq, Repr

/-- The demands of an operand. -/
def Operand.demands : Operand → List Demand
  | .path p => if p.isWildcard then [.fault .misplacedWildcard] else [.field p]
  | .literal _ => []
  | .aggregate f p =>
      if p.isWildcard then if f = .count then [] else [.fault .misplacedWildcard]
      else [.field p]

/-- The demand that an operator may stand in its place. -/
def OperatorPlace.demands (place : OperatorPlace) (allowed : Bool) (o : Operator) : List Demand :=
  if allowed then [] else [.fault (.unsupportedOperator o place)]

namespace Condition

mutual

/-- The demands of a condition, from left to right. The operator of a comparison comes before the
operands, and that of a null test after its operand. -/
def demands : Condition → List Demand
  | .anyOf cs => demandsOf cs
  | .allOf cs => demandsOf cs
  | .compare l o r _ => OperatorPlace.binary.demands o.isBinary o ++ (l.demands ++ r.demands)
  | .isIn l vs _ => l.demands ++ vs.flatMap Operand.demands
  | .between l a b _ => l.demands ++ (a.demands ++ b.demands)
  | .nullTest l o _ => l.demands ++ OperatorPlace.nullTest.demands o.isUnary o

/-- The demands of some conditions, from left to right. -/
def demandsOf : List Condition → List Demand
  | [] => []
  | c :: cs => c.demands ++ demandsOf cs

end

end Condition

/-- The demands of a query: those of its condition, of the condition on groups, and of the items to
group by. -/
def Query.demands (q : Query) : List Demand :=
  q.condition.demands ++
    (q.having.elim [] Condition.demands ++ (q.grouping.getD []).flatMap Operand.demands)

/-! ## Paths -/

/-- The paths in an operand; the argument of `COUNT(*)` is none. -/
def Operand.paths : Operand → List Path
  | .path p => [p]
  | .literal _ => []
  | .aggregate f p => if f = .count ∧ p.isWildcard then [] else [p]

namespace Condition

mutual

/-- The operands of a condition, from left to right. -/
def operands : Condition → List Operand
  | .anyOf cs => operandsOf cs
  | .allOf cs => operandsOf cs
  | .compare l _ r _ => [l, r]
  | .isIn l vs _ => l :: vs
  | .between l a b _ => [l, a, b]
  | .nullTest l _ _ => [l]

/-- The operands of some conditions, from left to right. -/
def operandsOf : List Condition → List Operand
  | [] => []
  | c :: cs => c.operands ++ operandsOf cs

end

theorem demandsOf_eq_flatMap (cs : List Condition) : demandsOf cs = cs.flatMap demands := by
  induction cs with
  | nil => rfl
  | cons c cs ih => rw [demandsOf, ih, List.flatMap_cons]

theorem operandsOf_eq_flatMap (cs : List Condition) : operandsOf cs = cs.flatMap operands := by
  induction cs with
  | nil => rfl
  | cons c cs ih => rw [operandsOf, ih, List.flatMap_cons]

end Condition

/-- The operands of a query: those of its condition, of the condition on groups, and the items to
group by. -/
def Query.operands (q : Query) : List Operand :=
  q.condition.operands ++ (q.having.elim [] Condition.operands ++ q.grouping.getD [])

/-- The paths of a query, in the order of its operands. -/
def Query.paths (q : Query) : List Path := q.operands.flatMap Operand.paths

/-! ## How a run ends -/

section Endings

variable {σ α β : Type}

/-- The error that a demand meets, if fields are refused by `refuse`. -/
def Demand.error? (refuse : Path → Option TargetError) : Demand → Option ApplyError
  | .field p => (refuse p).map .target
  | .fault e => some e

/-- From a sound state, a run ends in a sound state, with the error of the first of the demands that
meets one. -/
def Lowering.Asks (Sound : σ → Prop) (refuse : Path → Option TargetError) (x : Lowering σ α)
    (ds : List Demand) : Prop :=
  ∀ s, Sound s → Sound (x.run.run s).2 ∧ errorOf (x.run.run s).1 = ds.findSome? (·.error? refuse)

namespace Lowering.Asks

variable {Sound : σ → Prop} {refuse : Path → Option TargetError}

theorem pure (a : α) : Asks Sound refuse (Pure.pure a) [] := fun _ hs => ⟨hs, rfl⟩

/-- What would be demanded after a fault does not matter. -/
theorem fail (e : ApplyError) (ds : List Demand) :
    Asks Sound refuse (Lowering.fail e : Lowering σ α) (.fault e :: ds) := fun _ hs => ⟨hs, rfl⟩

theorem step {x : StateM σ α} (h : ∀ s, Sound s → Sound (x s).2) :
    Asks Sound refuse (.step x) [] := fun s hs => ⟨h s hs, rfl⟩

/-- What is done second is demanded second. -/
theorem bind {x : Lowering σ α} {f : α → Lowering σ β} {ds es : List Demand}
    (hx : Asks Sound refuse x ds) (hf : ∀ a, Asks Sound refuse (f a) es) :
    Asks Sound refuse (x >>= f) (ds ++ es) := by
  intro s hs
  have hfirst := hx s hs
  rw [Lowering.run_bind, List.findSome?_append]
  generalize x.run.run s = run at hfirst ⊢
  obtain ⟨e | a, t⟩ := run
  · rw [← hfirst.2]
    exact ⟨hfirst.1, rfl⟩
  · rw [← hfirst.2]
    exact hf a t hfirst.1

/-- What is done last may demand nothing. -/
theorem finish {x : Lowering σ α} {f : α → Lowering σ β} {ds : List Demand}
    (hx : Asks Sound refuse x ds) (hf : ∀ a, Asks Sound refuse (f a) []) :
    Asks Sound refuse (x >>= f) ds := by
  simpa only [List.append_nil] using hx.bind hf

end Lowering.Asks

end Endings

/-! ## Targets that refuse fields -/

namespace Target

open Lowering (Asks)

variable {σ ε κ : Type}

/-- The target refuses fields by their paths alone, and nothing else; all of its operations keep its
states sound. -/
structure Answers (Sound : σ → Prop) (refuse : Path → Option TargetError) (t : Target σ ε κ) :
    Prop where
  field : ∀ p j, Asks Sound refuse (.attempt (t.field p j)) [.field p]
  literal : ∀ l, Asks Sound refuse (.step (t.literal l)) []
  aggregateAll : Asks Sound refuse (.attempt (t.aggregate .count none)) []
  aggregate : ∀ f e, Asks Sound refuse (.attempt (t.aggregate f (some e))) []
  compare : ∀ o l r, Asks Sound refuse (.step (t.compare o l r)) []
  isNull : ∀ e, Asks Sound refuse (.step (t.isNull e)) []
  isNotNull : ∀ e, Asks Sound refuse (.step (t.isNotNull e)) []
  between : ∀ e l h, Asks Sound refuse (.step (t.between e l h)) []
  isIn : ∀ e vs, Asks Sound refuse (.step (t.isIn e vs)) []
  both : ∀ k l, Asks Sound refuse (.step (t.both k l)) []
  either : ∀ k l, Asks Sound refuse (.step (t.either k l)) []
  always : Asks Sound refuse (.step t.always) []
  groupBy : ∀ es, Asks Sound refuse (.step (t.groupBy es)) []
  having : ∀ k, Asks Sound refuse (.step (t.having k)) []

namespace Answers

variable {Sound : σ → Prop} {refuse : Path → Option TargetError} {t : Target σ ε κ}

/-! ## Operands -/

theorem lowerOperand (h : t.Answers Sound refuse) (j : JoinKind) (o : Operand) :
    Asks Sound refuse (t.lowerOperand j o) o.demands := by
  cases o with
  | path p =>
      rw [Target.lowerOperand, Operand.demands]
      by_cases hp : p.isWildcard = true
      · rw [if_pos hp, if_pos hp]
        exact .fail _ _
      · rw [if_neg hp, if_neg hp]
        exact h.field p j
  | literal l => exact h.literal l
  | aggregate f p =>
      rw [Target.lowerOperand, Target.lowerAggregate, Operand.demands]
      by_cases hp : p.isWildcard = true
      · rw [if_pos hp, if_pos hp]
        by_cases hf : f = .count
        · rw [if_pos hf, if_pos hf]
          exact h.aggregateAll
        · rw [if_neg hf, if_neg hf]
          exact .fail _ _
      · rw [if_neg hp, if_neg hp]
        exact (h.field p j).bind fun e => h.aggregate f e

theorem lowerOperands (h : t.Answers Sound refuse) (j : JoinKind) (os : List Operand) :
    Asks Sound refuse (t.lowerOperands j os) (os.flatMap Operand.demands) := by
  induction os with
  | nil => exact .pure []
  | cons o os ih =>
      rw [Target.lowerOperands, List.flatMap_cons]
      refine (h.lowerOperand j o).bind fun e => ?_
      exact ih.finish fun es => .pure (e :: es)

/-! ## Conditions -/

theorem lowerCompare (h : t.Answers Sound refuse) (l : Operand) (o : Operator) (r : Operand)
    (j : JoinKind) :
    Asks Sound refuse (t.lowerCompare l o r j) (Condition.compare l o r j).demands := by
  rw [Target.lowerCompare, Condition.demands, OperatorPlace.demands]
  by_cases ho : o.isBinary = true
  · rw [if_pos ho, if_pos ho]
    refine (h.lowerOperand j l).bind fun left => ?_
    exact (h.lowerOperand j r).finish fun right => h.compare o left right
  · rw [if_neg ho, if_neg ho]
    exact .fail _ _

theorem lowerIsIn (h : t.Answers Sound refuse) (l : Operand) (vs : List Operand) (j : JoinKind) :
    Asks Sound refuse (t.lowerIsIn l vs j) (Condition.isIn l vs j).demands := by
  rw [Target.lowerIsIn, Condition.demands]
  refine (h.lowerOperand j l).bind fun left => ?_
  exact (h.lowerOperands j vs).finish fun values => h.isIn left values

theorem lowerBetween (h : t.Answers Sound refuse) (l a b : Operand) (j : JoinKind) :
    Asks Sound refuse (t.lowerBetween l a b j) (Condition.between l a b j).demands := by
  rw [Target.lowerBetween, Condition.demands]
  refine (h.lowerOperand j l).bind fun left => ?_
  refine (h.lowerOperand j a).bind fun low => ?_
  exact (h.lowerOperand j b).finish fun high => h.between left low high

theorem lowerNullTest (h : t.Answers Sound refuse) (l : Operand) (o : Operator) (j : JoinKind) :
    Asks Sound refuse (t.lowerNullTest l o j) (Condition.nullTest l o j).demands := by
  rw [Target.lowerNullTest, Condition.demands]
  refine (h.lowerOperand j l).bind fun e => ?_
  cases o with
  | isNull => exact h.isNull e
  | isNotNull => exact h.isNotNull e
  | eq | ne | lt | lte | gt | gte | isIn | between => exact .fail _ _

/-- The children of a node are gone through one after the other. -/
theorem lowerRest {combine : κ → κ → StateM σ κ}
    (hcombine : ∀ k l, Asks Sound refuse (.step (combine k l)) []) {cs : List Condition}
    (hcs : ∀ c ∈ cs, Asks Sound refuse (t.lower c) c.demands) (first : κ) :
    Asks Sound refuse (t.lowerRest combine first cs) (Condition.demandsOf cs) := by
  induction cs generalizing first with
  | nil =>
      rw [Target.lowerRest]
      exact .pure first
  | cons c cs ih =>
      obtain ⟨hc, hcs⟩ := List.forall_mem_cons.mp hcs
      rw [Target.lowerRest, Condition.demandsOf]
      exact hc.bind fun next => (hcombine first next).bind fun both => ih hcs both

theorem lower (h : t.Answers Sound refuse) (c : Condition) :
    Asks Sound refuse (t.lower c) c.demands := by
  induction c using Condition.rec' with
  | anyOf cs ih =>
      rw [Condition.demands]
      cases cs with
      | nil =>
          rw [Target.lower]
          exact h.always
      | cons c cs =>
          obtain ⟨hc, hcs⟩ := List.forall_mem_cons.mp ih
          rw [Target.lower]
          exact hc.bind fun first => lowerRest h.either hcs first
  | allOf cs ih =>
      rw [Condition.demands]
      cases cs with
      | nil =>
          rw [Target.lower]
          exact h.always
      | cons c cs =>
          obtain ⟨hc, hcs⟩ := List.forall_mem_cons.mp ih
          rw [Target.lower]
          exact hc.bind fun first => lowerRest h.both hcs first
  | compare l o r j =>
      rw [Target.lower]
      exact h.lowerCompare l o r j
  | isIn l vs j =>
      rw [Target.lower]
      exact h.lowerIsIn l vs j
  | between l a b j =>
      rw [Target.lower]
      exact h.lowerBetween l a b j
  | nullTest l o j =>
      rw [Target.lower]
      exact h.lowerNullTest l o j

/-! ## Queries -/

theorem lowerHaving (h : t.Answers Sound refuse) (having : Option Condition) :
    Asks Sound refuse (t.lowerHaving having) (having.elim [] Condition.demands) := by
  cases having with
  | none => exact .pure none
  | some c =>
      exact (h.lower c).finish fun k => (h.having k).finish fun _ => .pure (some k)

theorem lowerGrouping (h : t.Answers Sound refuse) (grouping : Option (List Operand)) :
    Asks Sound refuse (t.lowerGrouping grouping)
      ((grouping.getD []).flatMap Operand.demands) := by
  match grouping with
  | none => exact .pure []
  | some [] => exact .pure []
  | some (o :: os) =>
      refine (h.lowerOperands .inner (o :: os)).finish fun es => ?_
      exact (h.groupBy es).finish fun _ => .pure es

theorem orAlways (h : t.Answers Sound refuse) (having : Option κ) :
    Asks Sound refuse (t.orAlways having) [] := by
  cases having with
  | none => exact h.always
  | some k => exact .pure k

/-- **The first demand that cannot be met decides how the lowering of a query ends.** -/
theorem apply (h : t.Answers Sound refuse) (q : Query) :
    Asks Sound refuse (t.apply q) q.demands := by
  refine (h.lower q.condition).bind fun k => ?_
  refine (h.lowerHaving q.having).bind fun having => ?_
  refine (h.lowerGrouping q.grouping).finish fun es => ?_
  exact (h.orAlways having).finish fun l => .pure (Lowered.mk k l es)

end Answers

end Target

end FilterQuery
