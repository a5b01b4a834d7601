import FilterQuery.Target
import Mathlib.Data.List.Forall2

/-!
# Related targets

Lowering a query never looks at what a target gives it: it only hands the values on to later
operations, and stops at the first error. So two targets whose operations are related give related
runs. A `Lowering.Relation` relates lowerings on two kinds of states and is kept by sequencing;
`Target.Related` asks it of every operation, and the main result is that it then holds of all that
is lowered (`Target.Related.apply`).
-/

set_option autoImplicit false

namespace FilterQuery

/-! ## Relations between lowerings -/

/-- A relation between lowerings, for every relation between their results. -/
structure Lowering.Relation (σ τ : Type) where
  Holds : {α β : Type} → (α → β → Prop) → Lowering σ α → Lowering τ β → Prop
  pure : ∀ {α β : Type} {R : α → β → Prop} {a : α} {b : β}, R a b →
    Holds R (Pure.pure a) (Pure.pure b)
  /-- Both may fail with the same error, if it is one of the lowering itself. -/
  fail : ∀ {α β : Type} {R : α → β → Prop} {e : ApplyError}, (∀ x, e ≠ .target x) →
    Holds R (.fail e) (.fail e)
  bind : ∀ {α β α' β' : Type} {R : α → β → Prop} {S : α' → β' → Prop} {x : Lowering σ α}
    {y : Lowering τ β} {f : α → Lowering σ α'} {g : β → Lowering τ β'}, Holds R x y →
    (∀ a b, R a b → Holds S (f a) (g b)) → Holds S (x >>= f) (y >>= g)

namespace Target

variable {σ τ ε ε' κ κ' : Type}

/-- The operations of two targets are related, where they are given related values. -/
structure Related (L : Lowering.Relation σ τ) (Rε : ε → ε' → Prop) (Rκ : κ → κ' → Prop)
    (t : Target σ ε κ) (u : Target τ ε' κ') : Prop where
  field : ∀ p j, L.Holds Rε (.attempt (t.field p j)) (.attempt (u.field p j))
  literal : ∀ l, L.Holds Rε (.step (t.literal l)) (.step (u.literal l))
  aggregateAll : ∀ f, L.Holds Rε (.attempt (t.aggregate f none)) (.attempt (u.aggregate f none))
  aggregate : ∀ f {e e'}, Rε e e' →
    L.Holds Rε (.attempt (t.aggregate f (some e))) (.attempt (u.aggregate f (some e')))
  compare : ∀ o {l l' r r'}, Rε l l' → Rε r r' →
    L.Holds Rκ (.step (t.compare o l r)) (.step (u.compare o l' r'))
  isNull : ∀ {e e'}, Rε e e' → L.Holds Rκ (.step (t.isNull e)) (.step (u.isNull e'))
  isNotNull : ∀ {e e'}, Rε e e' → L.Holds Rκ (.step (t.isNotNull e)) (.step (u.isNotNull e'))
  between : ∀ {e e' a a' b b'}, Rε e e' → Rε a a' → Rε b b' →
    L.Holds Rκ (.step (t.between e a b)) (.step (u.between e' a' b'))
  isIn : ∀ {e e' vs vs'}, Rε e e' → List.Forall₂ Rε vs vs' →
    L.Holds Rκ (.step (t.isIn e vs)) (.step (u.isIn e' vs'))
  both : ∀ {l l' r r'}, Rκ l l' → Rκ r r' →
    L.Holds Rκ (.step (t.both l r)) (.step (u.both l' r'))
  either : ∀ {l l' r r'}, Rκ l l' → Rκ r r' →
    L.Holds Rκ (.step (t.either l r)) (.step (u.either l' r'))
  always : L.Holds Rκ (.step t.always) (.step u.always)
  groupBy : ∀ {es es'}, List.Forall₂ Rε es es' →
    L.Holds (fun _ _ => True) (.step (t.groupBy es)) (.step (u.groupBy es'))
  having : ∀ {c c'}, Rκ c c' →
    L.Holds (fun _ _ => True) (.step (t.having c)) (.step (u.having c'))

/-- Two queries have become related values. -/
structure Lowered.Related (Rε : ε → ε' → Prop) (Rκ : κ → κ' → Prop) (l : Lowered ε κ)
    (l' : Lowered ε' κ') : Prop where
  condition : Rκ l.condition l'.condition
  having : Rκ l.having l'.having
  grouping : List.Forall₂ Rε l.grouping l'.grouping

namespace Related

variable {L : Lowering.Relation σ τ} {Rε : ε → ε' → Prop} {Rκ : κ → κ' → Prop}
  {t : Target σ ε κ} {u : Target τ ε' κ'}

/-! ## Operands -/

theorem lowerAggregate (h : Related L Rε Rκ t u) (f : Aggregate) (p : Path) (j : JoinKind) :
    L.Holds Rε (t.lowerAggregate f p j) (u.lowerAggregate f p j) := by
  rw [Target.lowerAggregate, Target.lowerAggregate]
  by_cases hp : p.isWildcard = true
  · rw [if_pos hp, if_pos hp]
    by_cases hf : f = .count
    · rw [if_pos hf, if_pos hf]
      exact h.aggregateAll .count
    · rw [if_neg hf, if_neg hf]
      exact L.fail nofun
  · rw [if_neg hp, if_neg hp]
    exact L.bind (h.field p j) fun e e' he => h.aggregate f he

theorem lowerOperand (h : Related L Rε Rκ t u) (j : JoinKind) (o : Operand) :
    L.Holds Rε (t.lowerOperand j o) (u.lowerOperand j o) := by
  cases o with
  | path p =>
      rw [Target.lowerOperand, Target.lowerOperand]
      by_cases hp : p.isWildcard = true
      · rw [if_pos hp, if_pos hp]
        exact L.fail nofun
      · rw [if_neg hp, if_neg hp]
        exact h.field p j
  | literal l => exact h.literal l
  | aggregate f p => exact h.lowerAggregate f p j

theorem lowerOperands (h : Related L Rε Rκ t u) (j : JoinKind) (os : List Operand) :
    L.Holds (List.Forall₂ Rε) (t.lowerOperands j os) (u.lowerOperands j os) := by
  induction os with
  | nil => exact L.pure .nil
  | cons o os ih =>
      refine L.bind (h.lowerOperand j o) fun e e' he => ?_
      exact L.bind ih fun es es' hes => L.pure (.cons he hes)

/-! ## Conditions -/

theorem lowerCompare (h : Related L Rε Rκ t u) (l : Operand) (o : Operator) (r : Operand)
    (j : JoinKind) : L.Holds Rκ (t.lowerCompare l o r j) (u.lowerCompare l o r j) := by
  rw [Target.lowerCompare, Target.lowerCompare]
  by_cases ho : o.isBinary = true
  · rw [if_pos ho, if_pos ho]
    refine L.bind (h.lowerOperand j l) fun e e' he => ?_
    exact L.bind (h.lowerOperand j r) fun b b' hb => h.compare o he hb
  · rw [if_neg ho, if_neg ho]
    exact L.fail nofun

theorem lowerIsIn (h : Related L Rε Rκ t u) (l : Operand) (vs : List Operand) (j : JoinKind) :
    L.Holds Rκ (t.lowerIsIn l vs j) (u.lowerIsIn l vs j) := by
  refine L.bind (h.lowerOperand j l) fun e e' he => ?_
  exact L.bind (h.lowerOperands j vs) fun es es' hes => h.isIn he hes

theorem lowerBetween (h : Related L Rε Rκ t u) (l a b : Operand) (j : JoinKind) :
    L.Holds Rκ (t.lowerBetween l a b j) (u.lowerBetween l a b j) := by
  refine L.bind (h.lowerOperand j l) fun e e' he => ?_
  refine L.bind (h.lowerOperand j a) fun low low' hlow => ?_
  exact L.bind (h.lowerOperand j b) fun high high' hhigh => h.between he hlow hhigh

theorem lowerNullTest (h : Related L Rε Rκ t u) (l : Operand) (o : Operator) (j : JoinKind) :
    L.Holds Rκ (t.lowerNullTest l o j) (u.lowerNullTest l o j) := by
  refine L.bind (h.lowerOperand j l) fun e e' he => ?_
  cases o with
  | isNull => exact h.isNull he
  | isNotNull => exact h.isNotNull he
  | eq | ne | lt | lte | gt | gte | isIn | between => exact L.fail nofun

/-- The children of a node, combined one after the other. -/
theorem lowerRest {combine : κ → κ → StateM σ κ} {combine' : κ' → κ' → StateM τ κ'}
    (hcombine : ∀ {l l' r r'}, Rκ l l' → Rκ r r' →
      L.Holds Rκ (.step (combine l r)) (.step (combine' l' r')))
    {cs : List Condition} (hcs : ∀ c ∈ cs, L.Holds Rκ (t.lower c) (u.lower c)) {first : κ}
    {first' : κ'} (hfirst : Rκ first first') :
    L.Holds Rκ (t.lowerRest combine first cs) (u.lowerRest combine' first' cs) := by
  induction cs generalizing first first' with
  | nil =>
      rw [Target.lowerRest, Target.lowerRest]
      exact L.pure hfirst
  | cons c cs ih =>
      obtain ⟨hc, hcs⟩ := List.forall_mem_cons.mp hcs
      rw [Target.lowerRest, Target.lowerRest]
      refine L.bind hc fun next next' hnext => ?_
      exact L.bind (hcombine hfirst hnext) fun both both' hboth => ih hcs hboth

theorem lower (h : Related L Rε Rκ t u) (c : Condition) :
    L.Holds Rκ (t.lower c) (u.lower c) := by
  induction c using Condition.rec' with
  | anyOf cs ih =>
      cases cs with
      | nil =>
          rw [Target.lower, Target.lower]
          exact h.always
      | cons c cs =>
          obtain ⟨hc, hcs⟩ := List.forall_mem_cons.mp ih
          rw [Target.lower, Target.lower]
          exact L.bind hc fun first first' hfirst => lowerRest h.either hcs hfirst
  | allOf cs ih =>
      cases cs with
      | nil =>
          rw [Target.lower, Target.lower]
          exact h.always
      | cons c cs =>
          obtain ⟨hc, hcs⟩ := List.forall_mem_cons.mp ih
          rw [Target.lower, Target.lower]
          exact L.bind hc fun first first' hfirst => lowerRest h.both hcs hfirst
  | compare l o r j =>
      rw [Target.lower, Target.lower]
      exact h.lowerCompare l o r j
  | isIn l vs j =>
      rw [Target.lower, Target.lower]
      exact h.lowerIsIn l vs j
  | between l a b j =>
      rw [Target.lower, Target.lower]
      exact h.lowerBetween l a b j
  | nullTest l o j =>
      rw [Target.lower, Target.lower]
      exact h.lowerNullTest l o j

/-! ## Queries -/

theorem lowerHaving (h : Related L Rε Rκ t u) (having : Option Condition) :
    L.Holds (Option.Rel Rκ) (t.lowerHaving having) (u.lowerHaving having) := by
  cases having with
  | none => exact L.pure .none
  | some c =>
      refine L.bind (h.lower c) fun p p' hp => ?_
      exact L.bind (h.having hp) fun _ _ _ => L.pure (.some hp)

theorem lowerGrouping (h : Related L Rε Rκ t u) (grouping : Option (List Operand)) :
    L.Holds (List.Forall₂ Rε) (t.lowerGrouping grouping) (u.lowerGrouping grouping) := by
  match grouping with
  | none => exact L.pure .nil
  | some [] => exact L.pure .nil
  | some (o :: os) =>
      refine L.bind (h.lowerOperands .inner (o :: os)) fun es es' hes => ?_
      exact L.bind (h.groupBy hes) fun _ _ _ => L.pure hes

theorem orAlways (h : Related L Rε Rκ t u) {having : Option κ} {having' : Option κ'}
    (hhaving : Option.Rel Rκ having having') :
    L.Holds Rκ (t.orAlways having) (u.orAlways having') := by
  cases hhaving with
  | some hp => exact L.pure hp
  | none => exact h.always

/-- **Related targets give related runs.** -/
theorem apply (h : Related L Rε Rκ t u) (q : Query) :
    L.Holds (Lowered.Related Rε Rκ) (t.apply q) (u.apply q) := by
  refine L.bind (h.lower q.condition) fun c c' hc => ?_
  refine L.bind (h.lowerHaving q.having) fun o o' ho => ?_
  refine L.bind (h.lowerGrouping q.grouping) fun es es' hes => ?_
  exact L.bind (h.orAlways ho) fun p p' hp => L.pure ⟨hc, hp, hes⟩

end Related

end Target

end FilterQuery
