import FilterQuery.Target
import Mathlib.Data.List.Forall2

/-!
# What lowering keeps

The states of a target go on changing while a query is lowered, and what an expression or a
condition says depends on the state. A `Lowering.Course` tells which states may come up and which
may come after which; a property of values is used only if it lasts from a state to every later
one.

`Course.Yields P x Q` says that the lowering `x`, run from a state with the property `P`, keeps the
course and gives a value with the property `Q`. `Target.Keeps` asks this of every operation of a
target: an expression has the property of the operand that it is made for, and a condition that of
the node that it is made for. The main result is that a whole query is then lowered to values with
these properties (`Target.Keeps.apply`).
-/

set_option autoImplicit false

namespace FilterQuery

/-! ## Courses of states -/

/-- The states that may come up, and which of them may come after which. -/
structure Lowering.Course (σ : Type) where
  Sound : σ → Prop
  Later : σ → σ → Prop
  refl : ∀ s, Later s s
  trans : ∀ {s t u}, Later s t → Later t u → Later s u

namespace Lowering.Course

variable {σ α β : Type}

/-- What holds in a state holds in every later one. -/
def Lasts (C : Course σ) (P : σ → Prop) : Prop := ∀ s t, C.Later s t → P s → P t

/-- From a sound state with the property `P`, a run that succeeds ends in a sound state that may
come after it, and there its result has the property `Q`. -/
def Yields (C : Course σ) (P : σ → Prop) (x : Lowering σ α) (Q : σ → α → Prop) : Prop :=
  ∀ s, C.Sound s → P s → ∀ a t, x.run.run s = (.ok a, t) → C.Sound t ∧ C.Later s t ∧ Q t a

namespace Yields

variable {C : Course σ} {P : σ → Prop} {Q : σ → α → Prop} {R : σ → β → Prop}

theorem pure {a : α} (h : ∀ s, P s → Q s a) : C.Yields P (Pure.pure a) Q := by
  intro s hs hP b t hrun
  cases hrun
  exact ⟨hs, C.refl s, h s hP⟩

theorem fail (e : ApplyError) : C.Yields P (.fail e) Q := by
  intro s _ _ a t hrun
  cases hrun

/-- An operation that leaves the state as it is. -/
theorem step {a : α} (h : ∀ s, P s → Q s a) : C.Yields P (.step (Pure.pure a)) Q := by
  intro s hs hP b t hrun
  cases hrun
  exact ⟨hs, C.refl s, h s hP⟩

/-- What is made second may rely on what has been made first. -/
theorem bind {x : Lowering σ α} {f : α → Lowering σ β} (hP : C.Lasts P) (hx : C.Yields P x Q)
    (hf : ∀ a, C.Yields (fun s => P s ∧ Q s a) (f a) R) : C.Yields P (x >>= f) R := by
  intro s hs hPs b u hrun
  obtain ⟨a, t, hfirst, hsecond⟩ := Lowering.run_bind_ok hrun
  obtain ⟨ht, hst, hQ⟩ := hx s hs hPs a t hfirst
  obtain ⟨hu, htu, hR⟩ := hf a t ht ⟨hP s t hst hPs, hQ⟩ b u hsecond
  exact ⟨hu, C.trans hst htu, hR⟩

theorem weaken {x : Lowering σ α} {P' : σ → Prop} (hx : C.Yields P x Q) (h : ∀ s, P' s → P s) :
    C.Yields P' x Q := fun s hs hP => hx s hs (h s hP)

/-- What asks nothing of the state may be run from every sound one. -/
theorem anywhere {x : Lowering σ α} (hx : C.Yields (fun _ => True) x Q) : C.Yields P x Q :=
  hx.weaken fun _ _ => trivial

theorem imp {x : Lowering σ α} {Q' : σ → α → Prop} (hx : C.Yields P x Q)
    (h : ∀ s a, Q s a → Q' s a) : C.Yields P x Q' := by
  intro s hs hP a t hrun
  obtain ⟨ht, hst, hQ⟩ := hx s hs hP a t hrun
  exact ⟨ht, hst, h t a hQ⟩

end Yields

theorem lasts_true (C : Course σ) : C.Lasts fun _ => True := fun _ _ _ h => h

theorem Lasts.and {C : Course σ} {P Q : σ → Prop} (hP : C.Lasts P) (hQ : C.Lasts Q) :
    C.Lasts fun s => P s ∧ Q s :=
  fun s t hst h => ⟨hP s t hst h.1, hQ s t hst h.2⟩

theorem Lasts.forall₂ {C : Course σ} {P : σ → α → β → Prop} (h : ∀ a b, C.Lasts fun s => P s a b)
    (as : List α) (bs : List β) : C.Lasts fun s => List.Forall₂ (P s) as bs :=
  fun s t hst hall => hall.imp fun a b hab => h a b s t hst hab

theorem Lasts.rel {C : Course σ} {P : σ → α → β → Prop} (h : ∀ a b, C.Lasts fun s => P s a b)
    (a : Option α) (b : Option β) : C.Lasts fun s => Option.Rel (P s) a b := by
  intro s t hst hab
  cases hab with
  | none => exact .none
  | some hab => exact .some (h _ _ s t hst hab)

end Lowering.Course

/-! ## Targets that keep a course -/

namespace Target

open Lowering (Course)

variable {σ ε κ : Type}

/-- Every operation of the target keeps the course. Out of expressions with the property `E` of
their operands it makes such expressions, and out of conditions with the property `K` of their
nodes such conditions. -/
structure Keeps (C : Course σ) (E : σ → Operand → ε → Prop) (K : σ → Condition → κ → Prop)
    (t : Target σ ε κ) : Prop where
  lasts : ∀ o e, C.Lasts fun s => E s o e
  lasts_condition : ∀ c k, C.Lasts fun s => K s c k
  field : ∀ p j, C.Yields (fun _ => True) (.attempt (t.field p j)) fun s e => E s (.path p) e
  literal : ∀ l, C.Yields (fun _ => True) (.step (t.literal l)) fun s e => E s (.literal l) e
  aggregateAll : ∀ p : Path, p.isWildcard = true →
    C.Yields (fun _ => True) (.attempt (t.aggregate .count none))
      fun s e => E s (.aggregate .count p) e
  aggregate : ∀ f p e, C.Yields (fun s => E s (.path p) e) (.attempt (t.aggregate f (some e)))
    fun s e => E s (.aggregate f p) e
  compare : ∀ l o r j a b, o.isBinary = true → C.Yields (fun s => E s l a ∧ E s r b)
    (.step (t.compare o a b)) fun s k => K s (.compare l o r j) k
  isIn : ∀ l vs j e es, C.Yields (fun s => E s l e ∧ List.Forall₂ (E s) vs es)
    (.step (t.isIn e es)) fun s k => K s (.isIn l vs j) k
  between : ∀ l a b j e low high, C.Yields (fun s => (E s l e ∧ E s a low) ∧ E s b high)
    (.step (t.between e low high)) fun s k => K s (.between l a b j) k
  isNull : ∀ l j e, C.Yields (fun s => E s l e) (.step (t.isNull e))
    fun s k => K s (.nullTest l .isNull j) k
  isNotNull : ∀ l j e, C.Yields (fun s => E s l e) (.step (t.isNotNull e))
    fun s k => K s (.nullTest l .isNotNull j) k
  always : C.Yields (fun _ => True) (.step t.always)
    fun s k => K s (.anyOf []) k ∧ K s (.allOf []) k
  /-- A node with one child becomes what the child becomes. -/
  single : ∀ s c k, K s c k → K s (.anyOf [c]) k ∧ K s (.allOf [c]) k
  either : ∀ cs c k l, C.Yields (fun s => K s (.anyOf cs) k ∧ K s c l) (.step (t.either k l))
    fun s k => K s (.anyOf (cs ++ [c])) k
  both : ∀ cs c k l, C.Yields (fun s => K s (.allOf cs) k ∧ K s c l) (.step (t.both k l))
    fun s k => K s (.allOf (cs ++ [c])) k
  groupBy : ∀ os es, C.Yields (fun s => List.Forall₂ (E s) os es) (.step (t.groupBy es))
    fun _ _ => True
  having : ∀ c k, C.Yields (fun s => K s c k) (.step (t.having k)) fun _ _ => True

namespace Keeps

variable {C : Course σ} {E : σ → Operand → ε → Prop} {K : σ → Condition → κ → Prop}
  {t : Target σ ε κ}

/-! ## Operands -/

theorem lowerAggregate (h : t.Keeps C E K) (f : Aggregate) (p : Path) (j : JoinKind) :
    C.Yields (fun _ => True) (t.lowerAggregate f p j) fun s e => E s (.aggregate f p) e := by
  rw [Target.lowerAggregate]
  by_cases hp : p.isWildcard = true
  · rw [if_pos hp]
    by_cases hf : f = .count
    · rw [if_pos hf, hf]
      exact h.aggregateAll p hp
    · rw [if_neg hf]
      exact .fail _
  · rw [if_neg hp]
    exact (h.field p j).bind C.lasts_true fun e => (h.aggregate f p e).weaken fun s he => he.2

theorem lowerOperand (h : t.Keeps C E K) (j : JoinKind) (o : Operand) :
    C.Yields (fun _ => True) (t.lowerOperand j o) fun s e => E s o e := by
  cases o with
  | path p =>
      rw [Target.lowerOperand]
      by_cases hp : p.isWildcard = true
      · rw [if_pos hp]
        exact .fail _
      · rw [if_neg hp]
        exact h.field p j
  | literal l => exact h.literal l
  | aggregate f p => exact h.lowerAggregate f p j

theorem lowerOperands (h : t.Keeps C E K) (j : JoinKind) (os : List Operand) :
    C.Yields (fun _ => True) (t.lowerOperands j os) fun s es => List.Forall₂ (E s) os es := by
  induction os with
  | nil => exact .pure fun s _ => .nil
  | cons o os ih =>
      refine (h.lowerOperand j o).bind C.lasts_true fun e => ?_
      refine ih.anywhere.bind (C.lasts_true.and (h.lasts o e)) fun es => ?_
      exact .pure fun s hes => .cons hes.1.2 hes.2

/-! ## Conditions -/

theorem lowerCompare (h : t.Keeps C E K) (l : Operand) (o : Operator) (r : Operand)
    (j : JoinKind) :
    C.Yields (fun _ => True) (t.lowerCompare l o r j) fun s k => K s (.compare l o r j) k := by
  rw [Target.lowerCompare]
  by_cases ho : o.isBinary = true
  · rw [if_pos ho]
    refine (h.lowerOperand j l).bind C.lasts_true fun a => ?_
    refine (h.lowerOperand j r).anywhere.bind
      (C.lasts_true.and (h.lasts l a)) fun b => ?_
    exact (h.compare l o r j a b ho).weaken fun s hab => ⟨hab.1.2, hab.2⟩
  · rw [if_neg ho]
    exact .fail _

theorem lowerIsIn (h : t.Keeps C E K) (l : Operand) (vs : List Operand) (j : JoinKind) :
    C.Yields (fun _ => True) (t.lowerIsIn l vs j) fun s k => K s (.isIn l vs j) k := by
  refine (h.lowerOperand j l).bind C.lasts_true fun e => ?_
  refine (h.lowerOperands j vs).anywhere.bind
    (C.lasts_true.and (h.lasts l e)) fun es => ?_
  exact (h.isIn l vs j e es).weaken fun s hes => ⟨hes.1.2, hes.2⟩

theorem lowerBetween (h : t.Keeps C E K) (l a b : Operand) (j : JoinKind) :
    C.Yields (fun _ => True) (t.lowerBetween l a b j) fun s k => K s (.between l a b j) k := by
  refine (h.lowerOperand j l).bind C.lasts_true fun e => ?_
  refine (h.lowerOperand j a).anywhere.bind
    (C.lasts_true.and (h.lasts l e)) fun low => ?_
  refine (h.lowerOperand j b).anywhere.bind
    ((C.lasts_true.and (h.lasts l e)).and (h.lasts a low)) fun high => ?_
  exact (h.between l a b j e low high).weaken fun s hall => ⟨⟨hall.1.1.2, hall.1.2⟩, hall.2⟩

theorem lowerNullTest (h : t.Keeps C E K) (l : Operand) (o : Operator) (j : JoinKind) :
    C.Yields (fun _ => True) (t.lowerNullTest l o j) fun s k => K s (.nullTest l o j) k := by
  refine (h.lowerOperand j l).bind C.lasts_true fun e => ?_
  cases o with
  | isNull => exact (h.isNull l j e).weaken fun s he => he.2
  | isNotNull => exact (h.isNotNull l j e).weaken fun s he => he.2
  | eq | ne | lt | lte | gt | gte | isIn | between => exact .fail _

/-- The children of a node, combined one after the other: `before` are those that have been combined
so far, and `node` puts children into a node. -/
theorem lowerRest (h : t.Keeps C E K) {node : List Condition → Condition}
    {combine : κ → κ → StateM σ κ}
    (hcombine : ∀ cs c k l, C.Yields (fun s => K s (node cs) k ∧ K s c l) (.step (combine k l))
      fun s k => K s (node (cs ++ [c])) k)
    {cs : List Condition}
    (hcs : ∀ c ∈ cs, C.Yields (fun _ => True) (t.lower c) fun s k => K s c k)
    (before : List Condition) (first : κ) :
    C.Yields (fun s => K s (node before) first) (t.lowerRest combine first cs)
      fun s k => K s (node (before ++ cs)) k := by
  induction cs generalizing before first with
  | nil =>
      rw [Target.lowerRest, List.append_nil]
      exact .pure fun s hfirst => hfirst
  | cons c cs ih =>
      obtain ⟨hc, hcs⟩ := List.forall_mem_cons.mp hcs
      -- what has been combined so far must last while the next child is lowered
      rw [Target.lowerRest, List.append_cons]
      have hlasts := h.lasts_condition (node before) first
      refine hc.anywhere.bind hlasts fun next => ?_
      refine (hcombine before c first next).bind (hlasts.and (h.lasts_condition c next))
        fun both => ?_
      exact (ih hcs (before ++ [c]) both).weaken fun s hboth => hboth.2

theorem lower (h : t.Keeps C E K) (c : Condition) :
    C.Yields (fun _ => True) (t.lower c) fun s k => K s c k := by
  induction c using Condition.rec' with
  | anyOf cs ih =>
      cases cs with
      | nil =>
          rw [Target.lower]
          exact h.always.imp fun s k hk => hk.1
      | cons c cs =>
          obtain ⟨hc, hcs⟩ := List.forall_mem_cons.mp ih
          rw [Target.lower]
          refine hc.bind C.lasts_true fun first => ?_
          exact (h.lowerRest h.either hcs [c] first).weaken
            fun s hfirst => (h.single s c first hfirst.2).1
  | allOf cs ih =>
      cases cs with
      | nil =>
          rw [Target.lower]
          exact h.always.imp fun s k hk => hk.2
      | cons c cs =>
          obtain ⟨hc, hcs⟩ := List.forall_mem_cons.mp ih
          rw [Target.lower]
          refine hc.bind C.lasts_true fun first => ?_
          exact (h.lowerRest h.both hcs [c] first).weaken
            fun s hfirst => (h.single s c first hfirst.2).2
  | compare l o r j =>
      rw [Target.lower]
      exact h.lowerCompare l o r j
  | isIn l vs j =>
      rw [Target.lower]
      exact h.lowerIsIn l vs j
  | between l a b j =>
      rw [Target.lower]
      exact h.lowerBetween l a b j
  | nullTest l o j =>
      rw [Target.lower]
      exact h.lowerNullTest l o j

/-! ## Queries -/

theorem lowerHaving (h : t.Keeps C E K) (having : Option Condition) :
    C.Yields (fun _ => True) (t.lowerHaving having)
      fun s ks => Option.Rel (K s) having ks := by
  cases having with
  | none => exact .pure fun s _ => .none
  | some c =>
      refine (h.lower c).bind C.lasts_true fun k => ?_
      refine ((h.having c k).weaken fun s hk => hk.2).bind
        (C.lasts_true.and (h.lasts_condition c k)) fun _ => ?_
      exact .pure fun s hk => .some hk.1.2

theorem lowerGrouping (h : t.Keeps C E K) (grouping : Option (List Operand)) :
    C.Yields (fun _ => True) (t.lowerGrouping grouping)
      fun s es => List.Forall₂ (E s) (grouping.getD []) es := by
  match grouping with
  | none => exact .pure fun s _ => .nil
  | some [] => exact .pure fun s _ => .nil
  | some (o :: os) =>
      refine (h.lowerOperands .inner (o :: os)).bind C.lasts_true fun es => ?_
      refine ((h.groupBy (o :: os) es).weaken fun s hes => hes.2).bind
        (C.lasts_true.and (.forall₂ h.lasts _ es)) fun _ => ?_
      exact .pure fun s hes => hes.1.2

/-- What a query has become has the properties of its parts. -/
structure Lowered (E : σ → Operand → ε → Prop) (K : σ → Condition → κ → Prop) (s : σ) (q : Query)
    (l : Target.Lowered ε κ) : Prop where
  condition : K s q.condition l.condition
  having : ∀ c ∈ q.having, K s c l.having
  grouping : List.Forall₂ (E s) (q.grouping.getD []) l.grouping

/-- **A query is lowered to values with the properties of its parts.** -/
theorem apply (h : t.Keeps C E K) (q : Query) :
    C.Yields (fun _ => True) (t.apply q) fun s l => Lowered E K s q l := by
  refine (h.lower q.condition).bind C.lasts_true fun k => ?_
  have hk := C.lasts_true.and (h.lasts_condition q.condition k)
  refine (h.lowerHaving q.having).anywhere.bind hk fun having => ?_
  have hhaving := Course.Lasts.rel h.lasts_condition q.having having
  refine (h.lowerGrouping q.grouping).anywhere.bind (hk.and hhaving)
    fun es => ?_
  have hes := (hk.and hhaving).and (.forall₂ h.lasts (q.grouping.getD []) es)
  -- where there is no condition on groups, nothing is asked of the one that is made instead
  have hlast : C.Yields (fun s => Option.Rel (K s) q.having having) (t.orAlways having)
      fun s k => ∀ c ∈ q.having, K s c k := by
    cases having with
    | some k =>
        refine .pure fun s hrel => ?_
        generalize q.having = o at hrel
        cases hrel with
        | some hc =>
            rintro _ ⟨⟩
            exact hc
    | none =>
        intro s hs hrel k u hrun
        obtain ⟨hu, hsu, -⟩ := h.always s hs trivial k u hrun
        generalize q.having = o at hrel
        cases hrel
        exact ⟨hu, hsu, nofun⟩
  refine (hlast.weaken fun s hall => hall.1.2).bind hes fun last => ?_
  exact .pure fun s hall => ⟨hall.1.1.1.2, hall.2, hall.1.2⟩

end Keeps

end Target

end FilterQuery
