import FilterQuery.Proofs.Query.Value
import FilterQuery.Proofs.Sql.Names
import Mathlib.Data.List.Forall2

/-!
# Meaning of predicates

A predicate is a tree of comparisons with two-sided connectives, and a condition is a tree of
comparisons whose nodes have any number of children. `Means` compares the two: their comparisons
stand in the same order, each with the operator and the operands of the other
(`TranslatesComparison`), and under every assignment of values to the comparisons both have the same
value. Lowering makes a predicate with the meaning of the condition (`makes_lower`); in the proof
the children that have been combined so far mean a node with these children. The main result is
`apply_means`.
-/

set_option autoImplicit false

namespace FilterQuery.Sql

/-! ## Values of predicates -/

namespace Predicate

/-- The comparisons of a predicate from left to right. -/
def comparisons : Predicate → List Predicate
  | .always => []
  | .and l r => l.comparisons ++ r.comparisons
  | .or l r => l.comparisons ++ r.comparisons
  | .compare o l r => [.compare o l r]
  | .isNull e => [.isNull e]
  | .isNotNull e => [.isNotNull e]
  | .between e l h => [.between e l h]
  | .isIn e vs => [.isIn e vs]

/-- The value of a predicate, where `v` gives the values of the comparisons and the first one has
the number `start`. -/
def value (v : Nat → Truth) (start : Nat) : Predicate → Truth
  | .always => .yes
  | .and l r => (l.value v start).and (r.value v (start + l.comparisons.length))
  | .or l r => (l.value v start).or (r.value v (start + l.comparisons.length))
  | .compare .. | .isNull .. | .isNotNull .. | .between .. | .isIn .. => v start

end Predicate

/-! ## Comparisons -/

/-- In a scope, what an operand becomes: a path becomes its column, a literal becomes a parameter,
and a function is applied to the column of its path or, written with `*`, to whole rows. -/
inductive TranslatesOperand (s : Scope) : Operand → Expr → Prop where
  | path {p : Path} {c : Column} (hp : p.isWildcard ≠ true) (h : s.Names p c) :
      TranslatesOperand s (.path p) (.column c)
  | literal (l : Literal) : TranslatesOperand s (.literal l) (.param l)
  | aggregate (f : Aggregate) {p : Path} {c : Column} (hp : p.isWildcard ≠ true)
      (h : s.Names p c) : TranslatesOperand s (.aggregate f p) (.aggregate f (.column c))
  | aggregateAll {p : Path} (h : p.isWildcard = true) :
      TranslatesOperand s (.aggregate .count p) (.aggregateAll .count)

/-- In a scope, what a comparison becomes: one of the same kind, with the same operator and with its
operands in their places. -/
inductive TranslatesComparison (s : Scope) : Condition → Predicate → Prop where
  | compare {l r : Operand} {o : Operator} {j : JoinKind} {l' r' : Expr}
      (ho : o.isBinary = true) (hl : TranslatesOperand s l l') (hr : TranslatesOperand s r r') :
      TranslatesComparison s (.compare l o r j) (.compare o l' r')
  | isIn {l : Operand} {vs : List Operand} {j : JoinKind} {e : Expr} {es : List Expr}
      (hl : TranslatesOperand s l e) (hvs : List.Forall₂ (TranslatesOperand s) vs es) :
      TranslatesComparison s (.isIn l vs j) (.isIn e es)
  | between {l a b : Operand} {j : JoinKind} {e low high : Expr}
      (hl : TranslatesOperand s l e) (ha : TranslatesOperand s a low)
      (hb : TranslatesOperand s b high) :
      TranslatesComparison s (.between l a b j) (.between e low high)
  | isNull {l : Operand} {j : JoinKind} {e : Expr} (hl : TranslatesOperand s l e) :
      TranslatesComparison s (.nullTest l .isNull j) (.isNull e)
  | isNotNull {l : Operand} {j : JoinKind} {e : Expr} (hl : TranslatesOperand s l e) :
      TranslatesComparison s (.nullTest l .isNotNull j) (.isNotNull e)

/-- In a scope, the predicate says what the condition says. -/
structure Means (s : Scope) (c : Condition) (p : Predicate) : Prop where
  comparisons : List.Forall₂ (TranslatesComparison s) c.comparisons p.comparisons
  value : ∀ v start, p.value v start = c.value v start

/-! ## Operands -/

theorem makes_lowerAggregate (f : Aggregate) (p : Path) (j : JoinKind) :
    Makes (sqlTarget.lowerAggregate f p j) fun t e => TranslatesOperand t (.aggregate f p) e := by
  rw [Target.lowerAggregate]
  by_cases hp : p.isWildcard = true
  · rw [if_pos hp]
    by_cases hf : f = .count
    · rw [if_pos hf, hf]
      exact Makes.step fun t => .aggregateAll hp
    · rw [if_neg hf]
      exact .fail _
  · rw [if_neg hp]
    refine (makes_field p j).bind fun e => Makes.step fun t he => ?_
    obtain ⟨c, rfl, hc⟩ := he
    exact .aggregate f hp hc

theorem makes_lowerOperand (j : JoinKind) (o : Operand) :
    Makes (sqlTarget.lowerOperand j o) fun t e => TranslatesOperand t o e := by
  cases o with
  | path p =>
      rw [Target.lowerOperand]
      by_cases hp : p.isWildcard = true
      · rw [if_pos hp]
        exact .fail _
      · rw [if_neg hp]
        refine (makes_field p j).imp fun t e he => ?_
        obtain ⟨c, rfl, hc⟩ := he
        exact .path hp hc
  | literal l => exact Makes.step fun t => .literal l
  | aggregate f p => exact makes_lowerAggregate f p j

theorem makes_lowerOperands (j : JoinKind) (os : List Operand) :
    Makes (sqlTarget.lowerOperands j os) fun t es =>
      List.Forall₂ (TranslatesOperand t) os es := by
  induction os with
  | nil => exact Makes.pure fun t => .nil
  | cons o os ih =>
      refine (makes_lowerOperand j o).bind fun e => ?_
      exact ih.bind fun es => Makes.pure fun t hes he => .cons he hes

/-! ## Conditions -/

/-- A comparison has the value of its only comparison. -/
theorem TranslatesComparison.means {s : Scope} {c : Condition} {p : Predicate}
    (h : TranslatesComparison s c p) : Means s c p := by
  cases h with
  | compare ho hl hr => exact ⟨.cons (.compare ho hl hr) .nil, fun _ _ => rfl⟩
  | isIn hl hvs => exact ⟨.cons (.isIn hl hvs) .nil, fun _ _ => rfl⟩
  | between hl ha hb => exact ⟨.cons (.between hl ha hb) .nil, fun _ _ => rfl⟩
  | isNull hl => exact ⟨.cons (.isNull hl) .nil, fun _ _ => rfl⟩
  | isNotNull hl => exact ⟨.cons (.isNotNull hl) .nil, fun _ _ => rfl⟩

theorem makes_lowerCompare (l : Operand) (o : Operator) (r : Operand) (j : JoinKind) :
    Makes (sqlTarget.lowerCompare l o r j) fun t p =>
      TranslatesComparison t (.compare l o r j) p := by
  rw [Target.lowerCompare]
  by_cases ho : o.isBinary = true
  · rw [if_pos ho]
    refine (makes_lowerOperand j l).bind fun l' => (makes_lowerOperand j r).bind fun r' => ?_
    exact Makes.step fun t hr hl => .compare ho hl hr
  · rw [if_neg ho]
    exact .fail _

theorem makes_lowerIsIn (l : Operand) (vs : List Operand) (j : JoinKind) :
    Makes (sqlTarget.lowerIsIn l vs j) fun t p => TranslatesComparison t (.isIn l vs j) p := by
  refine (makes_lowerOperand j l).bind fun e => (makes_lowerOperands j vs).bind fun es => ?_
  exact Makes.step fun t hes he => .isIn he hes

theorem makes_lowerBetween (l a b : Operand) (j : JoinKind) :
    Makes (sqlTarget.lowerBetween l a b j) fun t p =>
      TranslatesComparison t (.between l a b j) p := by
  refine (makes_lowerOperand j l).bind fun e => (makes_lowerOperand j a).bind fun low => ?_
  refine (makes_lowerOperand j b).bind fun high => ?_
  exact Makes.step fun t hhigh hlow he => .between he hlow hhigh

theorem makes_lowerNullTest (l : Operand) (o : Operator) (j : JoinKind) :
    Makes (sqlTarget.lowerNullTest l o j) fun t p =>
      TranslatesComparison t (.nullTest l o j) p := by
  refine (makes_lowerOperand j l).bind fun e => ?_
  cases o with
  | isNull => exact Makes.step fun t he => .isNull he
  | isNotNull => exact Makes.step fun t he => .isNotNull he
  | eq | ne | lt | lte | gt | gte | isIn | between => exact .fail _

/-- The predicate says what a node with some children says, where `fold` makes the value of the node
out of those of the children. -/
structure MeansAll (fold : List Truth → Truth) (s : Scope) (cs : List Condition) (p : Predicate) :
    Prop where
  comparisons : List.Forall₂ (TranslatesComparison s) (Condition.comparisonsOf cs) p.comparisons
  value : ∀ v start, p.value v start = fold (Condition.valuesOf v start cs)

/-- The connective of two predicates goes with the values of nodes. -/
structure Connects (connect : Predicate → Predicate → Predicate) (fold : List Truth → Truth) :
    Prop where
  singleton : ∀ t, fold [t] = t
  comparisons : ∀ l r, (connect l r).comparisons = l.comparisons ++ r.comparisons
  value : ∀ l r v start ts, l.value v start = fold ts →
    (connect l r).value v start = fold (ts ++ [r.value v (start + l.comparisons.length)])

theorem connects_and : Connects .and .all where
  singleton := Truth.all_singleton
  comparisons _ _ := rfl
  value l r v start ts h := by rw [Predicate.value, h, Truth.all_concat]

theorem connects_or : Connects .or .any where
  singleton := Truth.any_singleton
  comparisons _ _ := rfl
  value l r v start ts h := by rw [Predicate.value, h, Truth.any_concat]

section Connect

variable {connect : Predicate → Predicate → Predicate} {fold : List Truth → Truth} {s : Scope}

theorem Connects.meansAll_singleton (h : Connects connect fold) {c : Condition} {p : Predicate}
    (hp : Means s c p) : MeansAll fold s [c] p := by
  refine ⟨?_, fun v start => ?_⟩
  · rw [Condition.comparisonsOf_singleton]
    exact hp.comparisons
  · rw [Condition.valuesOf_singleton, h.singleton]
    exact hp.value v start

/-- One more child. -/
theorem Connects.meansAll_concat (h : Connects connect fold) {cs : List Condition} {c : Condition}
    {p r : Predicate} (hp : MeansAll fold s cs p) (hr : Means s c r) :
    MeansAll fold s (cs ++ [c]) (connect p r) := by
  refine ⟨?_, fun v start => ?_⟩
  · rw [Condition.comparisonsOf_append, Condition.comparisonsOf_singleton, h.comparisons]
    exact List.rel_append hp.comparisons hr.comparisons
  · have hlength : p.comparisons.length = (Condition.comparisonsOf cs).length :=
      hp.comparisons.length_eq.symm
    rw [h.value p r v start _ (hp.value v start), Condition.valuesOf_append,
      Condition.valuesOf_singleton, hr.value, hlength]

/-- The children of a node, combined one after the other: `before` are those that have been combined
so far. -/
theorem Connects.makes_lowerRest (h : Connects connect fold)
    {combine : Predicate → Predicate → StateM Scope Predicate}
    (hcombine : ∀ l r, combine l r = pure (connect l r)) {cs : List Condition}
    (hcs : ∀ c ∈ cs, Makes (sqlTarget.lower c) fun t p => Means t c p) (before : List Condition)
    (first : Predicate) :
    Makes (sqlTarget.lowerRest combine first cs) fun t p =>
      MeansAll fold t before first → MeansAll fold t (before ++ cs) p := by
  induction cs generalizing before first with
  | nil =>
      rw [Target.lowerRest]
      exact Makes.pure fun t hfirst => by rwa [List.append_nil]
  | cons c cs ih =>
      obtain ⟨hc, hcs⟩ := List.forall_mem_cons.mp hcs
      rw [Target.lowerRest]
      refine hc.bind fun next => ?_
      rw [hcombine]
      refine (Makes.step (P := fun t p => p = connect first next) fun _ => rfl).bind fun both => ?_
      refine (ih hcs (before ++ [c]) both).imp fun t p hp hboth hnext hfirst => ?_
      subst hboth
      have hall := hp (h.meansAll_concat hfirst hnext)
      rwa [List.append_assoc] at hall

/-- A node with children. -/
theorem Connects.makes_node (h : Connects connect fold)
    {combine : Predicate → Predicate → StateM Scope Predicate}
    (hcombine : ∀ l r, combine l r = pure (connect l r)) {c : Condition} {cs : List Condition}
    (hcs : ∀ d ∈ c :: cs, Makes (sqlTarget.lower d) fun t p => Means t d p) :
    Makes (do
      let first ← sqlTarget.lower c
      sqlTarget.lowerRest combine first cs) fun t p => MeansAll fold t (c :: cs) p := by
  obtain ⟨hc, hcs⟩ := List.forall_mem_cons.mp hcs
  refine hc.bind fun first => ?_
  refine (h.makes_lowerRest hcombine hcs [c] first).imp fun t p hp hfirst => ?_
  exact hp (h.meansAll_singleton hfirst)

end Connect

/-- A node without children. -/
theorem makes_always {c : Condition} (hcomparisons : c.comparisons = [])
    (hvalue : ∀ v start, c.value v start = .yes) :
    Makes (.step sqlTarget.always) fun t p => Means t c p := by
  refine Makes.step fun t => ⟨?_, fun v start => (hvalue v start).symm⟩
  rw [hcomparisons]
  exact .nil

/-- **Lowering keeps the meaning of a condition.** -/
theorem makes_lower (c : Condition) : Makes (sqlTarget.lower c) fun t p => Means t c p := by
  induction c using Condition.rec' with
  | anyOf cs ih =>
      cases cs with
      | nil =>
          rw [Target.lower]
          exact makes_always rfl fun _ _ => rfl
      | cons c cs =>
          rw [Target.lower]
          refine (connects_or.makes_node (fun _ _ => rfl) ih).imp fun t p hp => ?_
          refine ⟨hp.comparisons, fun v start => ?_⟩
          rw [Condition.value_anyOf v start (List.cons_ne_nil c cs)]
          exact hp.value v start
  | allOf cs ih =>
      cases cs with
      | nil =>
          rw [Target.lower]
          exact makes_always rfl fun _ _ => rfl
      | cons c cs =>
          rw [Target.lower]
          refine (connects_and.makes_node (fun _ _ => rfl) ih).imp fun t p hp => ?_
          refine ⟨hp.comparisons, fun v start => ?_⟩
          rw [Condition.value_allOf]
          exact hp.value v start
  | compare l o r j =>
      rw [Target.lower]
      exact (makes_lowerCompare l o r j).imp fun t p hp => hp.means
  | isIn l vs j =>
      rw [Target.lower]
      exact (makes_lowerIsIn l vs j).imp fun t p hp => hp.means
  | between l a b j =>
      rw [Target.lower]
      exact (makes_lowerBetween l a b j).imp fun t p hp => hp.means
  | nullTest l o j =>
      rw [Target.lower]
      exact (makes_lowerNullTest l o j).imp fun t p hp => hp.means

/-! ## Queries -/

/-- The lowering of the items to group by adds joins, and sets nothing but the grouping. -/
theorem lowerGrouping_extends {grouping : Option (List Operand)} {es : List Expr} {s s' : Scope}
    (h : (sqlTarget.lowerGrouping grouping).run.run s = (.ok es, s')) :
    s.Extends s' ∧ s'.having = s.having := by
  match grouping with
  | none =>
      cases h
      exact ⟨.refl _, rfl⟩
  | some [] =>
      cases h
      exact ⟨.refl _, rfl⟩
  | some (o :: os) =>
      obtain ⟨items, s₁, hitems, hset⟩ := Lowering.run_bind_ok h
      obtain ⟨hjoined, -⟩ := makes_lowerOperands .inner (o :: os) s items s₁ hitems
      cases hset
      exact ⟨⟨hjoined.schema_eq, hjoined.crossings⟩, hjoined.having_eq⟩

/-- **A lowered query keeps its meaning.** The predicate on rows and the one on groups say what the
conditions of the query say; the one on groups is also what the scope holds for the statement. -/
theorem apply_means {q : Query} {schema : Schema} {lowered : Target.Lowered Expr Predicate}
    {scope : Scope}
    (h : (sqlTarget.apply q).run.run (.ofSchema schema) = (.ok lowered, scope)) :
    Means scope q.condition lowered.condition ∧
      (∀ c, q.having = some c → Means scope c lowered.having) ∧
      (q.having = none → lowered.having = .always) ∧
      scope.having = q.having.map fun _ => lowered.having := by
  obtain ⟨condition, s₁, hcondition, h⟩ := Lowering.run_bind_ok h
  obtain ⟨having, s₂, hhaving, h⟩ := Lowering.run_bind_ok h
  obtain ⟨grouping, s₃, hgrouping, h⟩ := Lowering.run_bind_ok h
  obtain ⟨having', s₄, hlast, h⟩ := Lowering.run_bind_ok h
  cases h
  obtain ⟨hjoined, hmeans⟩ := makes_lower q.condition _ _ _ hcondition
  obtain ⟨hextends, hkept⟩ := lowerGrouping_extends hgrouping
  cases hq : q.having with
  | none =>
      rw [hq] at hhaving
      cases hhaving
      cases hlast
      exact ⟨hmeans _ hextends, nofun, fun _ => rfl, hkept.trans hjoined.having_eq⟩
  | some c =>
      rw [hq] at hhaving
      obtain ⟨p, s', hp, hset⟩ := Lowering.run_bind_ok hhaving
      cases hset
      cases hlast
      obtain ⟨hjoined', hmeans'⟩ := makes_lower c _ _ _ hp
      -- setting the predicate on groups leaves the joins as they are
      have hlater : s'.Extends scope := ⟨hextends.schema_eq, hextends.crossings⟩
      refine ⟨hmeans _ (hjoined'.toExtends.trans hlater), ?_, nofun, hkept⟩
      rintro _ ⟨⟩
      exact hmeans' _ hlater

/-- Orders and the customers who have placed them. -/
def sampleSchema : Schema :=
  ⟨"orders", [("orders", ⟨["total", "note"], [("customer", ⟨"customers", "customer_id", "id"⟩)]⟩),
    ("customers", ⟨[], []⟩)]⟩

/-- Orders without a note by the customers of one place, for the totals that occur more than
once. -/
def sampleQuery : Query where
  condition := .anyOf [.allOf [
    .compare (.path ⟨["customer", "place"]⟩) .eq (.literal (.string "x")) .left,
    .nullTest (.path ⟨["note"]⟩) .isNull .inner], .anyOf []]
  having := some (.allOf [.compare (.aggregate .count ⟨["*"]⟩) .gt (.literal (.integer 1)) .inner])
  grouping := some [.path ⟨["total"]⟩]

theorem apply_means_sampleQuery : ∃ lowered scope,
    (sqlTarget.apply sampleQuery).run.run (.ofSchema sampleSchema) = (.ok lowered, scope) ∧
      Means scope sampleQuery.condition lowered.condition ∧
      scope.having = some lowered.having := by
  have h : ∃ lowered scope,
      (sqlTarget.apply sampleQuery).run.run (.ofSchema sampleSchema) = (.ok lowered, scope) :=
    ⟨_, _, rfl⟩
  obtain ⟨lowered, scope, h⟩ := h
  obtain ⟨hcondition, -, -, hhaving⟩ := apply_means h
  exact ⟨lowered, scope, h, hcondition, hhaving⟩

end FilterQuery.Sql
