import FilterQuery.Proofs.Query.Value
import FilterQuery.Proofs.Target.Demands
import FilterQuery.Target.Record

/-!
# Valid queries

A target that refuses nothing leaves only the faults of the query itself: an operator that stands in
the wrong kind of comparison, and a `*` outside `COUNT`. `Query.Valid` says that there are none,
comparison by comparison and operand by operand; `Query.faults` lists them in the order in which
lowering comes to them. Main result: on every target that refuses nothing a query is lowered exactly
if it is valid, and otherwise it fails with the first of its faults (`apply_ok_iff_valid`).
-/

set_option autoImplicit false

namespace FilterQuery

/-! ## Faults -/

/-- The error of a demand that no target can meet. -/
def Demand.fault? : Demand → Option ApplyError
  | .field _ => none
  | .fault e => some e

/-- What is wrong with a query, in the order of its demands: in its condition, in the condition on
groups and in the items to group by, each from left to right. -/
def Query.faults (q : Query) : List ApplyError := q.demands.filterMap Demand.fault?

/-- None of the demands is one that no target can meet. -/
def NoFault (ds : List Demand) : Prop := ∀ d ∈ ds, d.fault? = none

@[simp] theorem noFault_nil : NoFault [] := List.forall_mem_nil _

@[simp] theorem noFault_field (p : Path) : NoFault [.field p] := List.forall_mem_singleton.mpr rfl

@[simp] theorem not_noFault_fault (e : ApplyError) : ¬NoFault [.fault e] := fun h => by
  cases h (.fault e) List.mem_cons_self

theorem noFault_append {ds es : List Demand} : NoFault (ds ++ es) ↔ NoFault ds ∧ NoFault es :=
  List.forall_mem_append

theorem noFault_flatMap {α : Type} {f : α → List Demand} {as : List α} :
    NoFault (as.flatMap f) ↔ ∀ a ∈ as, NoFault (f a) :=
  List.forall_mem_flatMap

theorem Query.faults_eq_nil_iff (q : Query) : q.faults = [] ↔ NoFault q.demands :=
  List.filterMap_eq_nil_iff

/-! ## Validity -/

/-- The operand is not `*`, and no function but `COUNT` is applied to `*`. -/
def Operand.Valid (o : Operand) : Prop :=
  o ≠ .path .wildcard ∧ ∀ f, o = .aggregate f .wildcard → f = .count

theorem Path.isWildcard_iff (p : Path) : p.isWildcard = true ↔ p = .wildcard := by
  obtain ⟨identifiers⟩ := p
  simp [isWildcard, wildcard]

theorem Operand.noFault_demands_iff (o : Operand) : NoFault o.demands ↔ o.Valid := by
  cases o with
  | path p => by_cases hp : p.isWildcard = true <;> simp [demands, Valid, hp, ← p.isWildcard_iff]
  | literal l => simp [demands, Valid]
  | aggregate f p =>
      by_cases hp : p.isWildcard = true <;> by_cases hf : f = .count <;>
        simp [demands, Valid, hp, hf, ← p.isWildcard_iff]

namespace Condition

/-- The operator of a comparison is one of those that it allows. -/
def OperatorFits : Condition → Prop
  | .compare _ o _ _ => o ∈ [.eq, .ne, .lt, .lte, .gt, .gte]
  | .nullTest _ o _ => o ∈ [.isNull, .isNotNull]
  | _ => True

/-- The operators of all comparisons of a condition fit, and all of its operands are valid. -/
def Valid (c : Condition) : Prop :=
  (∀ k ∈ c.comparisons, k.OperatorFits) ∧ ∀ o ∈ c.operands, o.Valid

theorem comparisonsOf_eq_flatMap (cs : List Condition) :
    comparisonsOf cs = cs.flatMap comparisons := by
  induction cs with
  | nil => rfl
  | cons c cs ih => rw [comparisonsOf, ih, List.flatMap_cons]

end Condition

theorem OperatorPlace.noFault_demands_iff (place : OperatorPlace) (allowed : Bool) (o : Operator) :
    NoFault (place.demands allowed o) ↔ allowed = true := by
  cases allowed <;> simp [OperatorPlace.demands]

namespace Condition

/-- A node with children is valid if the children are. -/
theorem noFault_demandsOf_iff {cs : List Condition} (h : ∀ c ∈ cs, NoFault c.demands ↔ c.Valid) :
    NoFault (demandsOf cs) ↔
      (∀ k ∈ comparisonsOf cs, k.OperatorFits) ∧ ∀ o ∈ operandsOf cs, o.Valid := by
  rw [demandsOf_eq_flatMap, comparisonsOf_eq_flatMap, operandsOf_eq_flatMap, noFault_flatMap,
    List.forall_mem_flatMap, List.forall_mem_flatMap]
  refine (forall₂_congr h).trans ?_
  simp only [Valid, imp_and, forall_and]

/-- **A condition has no fault exactly if it is valid.** -/
theorem noFault_demands_iff (c : Condition) : NoFault c.demands ↔ c.Valid := by
  induction c using Condition.rec' with
  | anyOf cs ih => exact noFault_demandsOf_iff ih
  | allOf cs ih => exact noFault_demandsOf_iff ih
  | compare l o r j =>
      have ho : o.isBinary = true ↔ o ∈ [Operator.eq, .ne, .lt, .lte, .gt, .gte] := by
        cases o <;> decide
      rw [demands, noFault_append, noFault_append, OperatorPlace.noFault_demands_iff, ho,
        l.noFault_demands_iff, r.noFault_demands_iff]
      simp [Valid, comparisons, operands, OperatorFits]
  | isIn l vs j =>
      have hvs : NoFault (vs.flatMap Operand.demands) ↔ ∀ v ∈ vs, v.Valid :=
        noFault_flatMap.trans (forall₂_congr fun v _ => v.noFault_demands_iff)
      rw [demands, noFault_append, l.noFault_demands_iff, hvs]
      simp [Valid, comparisons, operands, OperatorFits]
  | between l a b j =>
      rw [demands, noFault_append, noFault_append, l.noFault_demands_iff, a.noFault_demands_iff,
        b.noFault_demands_iff]
      simp [Valid, comparisons, operands, OperatorFits]
  | nullTest l o j =>
      have ho : o.isUnary = true ↔ o ∈ [Operator.isNull, .isNotNull] := by
        cases o <;> decide
      rw [demands, noFault_append, OperatorPlace.noFault_demands_iff, ho, l.noFault_demands_iff]
      simp [Valid, comparisons, operands, OperatorFits, and_comm]

end Condition

namespace Query

/-- The comparisons of a query: those of its condition and of the condition on groups. -/
def comparisons (q : Query) : List Condition :=
  q.condition.comparisons ++ q.having.elim [] Condition.comparisons

/-- The query can be lowered to a target that refuses nothing. -/
structure Valid (q : Query) : Prop where
  /-- Every comparison of two operands has an operator for two operands. -/
  binary : ∀ l o r j, .compare l o r j ∈ q.comparisons → o ∈ [.eq, .ne, .lt, .lte, .gt, .gte]
  /-- Every null test has one of its two operators. -/
  nullTest : ∀ l o j, .nullTest l o j ∈ q.comparisons → o ∈ [.isNull, .isNotNull]
  /-- No operand is `*`. -/
  noWildcard : .path .wildcard ∉ q.operands
  /-- No function but `COUNT` is applied to `*`. -/
  counted : ∀ f, .aggregate f .wildcard ∈ q.operands → f = .count

theorem valid_iff (q : Query) :
    q.Valid ↔ (∀ k ∈ q.comparisons, k.OperatorFits) ∧ ∀ o ∈ q.operands, o.Valid := by
  constructor
  · rintro ⟨hbinary, hnullTest, hwildcard, hcounted⟩
    refine ⟨fun k hk => ?_, fun o ho => ⟨?_, ?_⟩⟩
    · cases k with
      | compare l o r j => exact hbinary l o r j hk
      | nullTest l o j => exact hnullTest l o j hk
      | anyOf | allOf | isIn | between => exact trivial
    · rintro rfl
      exact hwildcard ho
    · rintro f rfl
      exact hcounted f ho
  · rintro ⟨hfits, hvalid⟩
    exact ⟨fun l o r j hk => hfits _ hk, fun l o j hk => hfits _ hk,
      fun hmem => (hvalid _ hmem).1 rfl, fun f hmem => (hvalid _ hmem).2 f rfl⟩

/-- **A query has no fault exactly if it is valid.** -/
theorem noFault_demands_iff (q : Query) : NoFault q.demands ↔ q.Valid := by
  have hgrouping : NoFault ((q.grouping.getD []).flatMap Operand.demands) ↔
      ∀ o ∈ q.grouping.getD [], o.Valid :=
    noFault_flatMap.trans (forall₂_congr fun o _ => o.noFault_demands_iff)
  have hhaving : NoFault (q.having.elim [] Condition.demands) ↔
      (∀ k ∈ q.having.elim [] Condition.comparisons, k.OperatorFits) ∧
        ∀ o ∈ q.having.elim [] Condition.operands, o.Valid := by
    cases q.having with
    | none => simp
    | some c => exact c.noFault_demands_iff
  rw [valid_iff, demands, comparisons, operands, noFault_append, noFault_append,
    q.condition.noFault_demands_iff, hhaving, hgrouping, Condition.Valid]
  simp only [List.forall_mem_append]
  exact (and_congr_right' and_assoc).trans and_and_and_comm

end Query

/-! ## Targets that refuse nothing -/

namespace Target

variable {σ ε κ : Type}

/-- The target never refuses a field or a function. -/
structure RefusesNothing (t : Target σ ε κ) : Prop where
  field : ∀ p j s, ∃ e s', t.field p j s = (.ok e, s')
  aggregate : ∀ f e s, ∃ e' s', t.aggregate f e s = (.ok e', s')

theorem error?_of_none : Demand.error? (fun _ => none) = Demand.fault? := by
  funext d
  cases d <;> rfl

/-- An operation that is never refused meets its demands. -/
theorem asks_attempt {α : Type} {x : StateM σ (Except TargetError α)}
    (hx : ∀ s, ∃ a s', x s = (.ok a, s')) {ds : List Demand} (hds : NoFault ds) :
    Lowering.Asks (fun _ => True) (fun _ => none) (.attempt x) ds := by
  intro s _
  obtain ⟨a, s', hrun⟩ := hx s
  have hnone : ds.findSome? (·.error? fun _ => none) = none := by
    rw [error?_of_none]
    exact List.findSome?_eq_none_iff.mpr hds
  refine ⟨trivial, ?_⟩
  simp only [Lowering.attempt, ExceptT.run, StateT.run, hrun, hnone]
  rfl

/-- Only faults are left to fail on. -/
theorem RefusesNothing.answers {t : Target σ ε κ} (h : t.RefusesNothing) :
    t.Answers (fun _ => True) fun _ => none where
  field p j := asks_attempt (h.field p j) (noFault_field p)
  literal _ := .step fun _ _ => trivial
  aggregateAll := asks_attempt (h.aggregate .count none) noFault_nil
  aggregate f e := asks_attempt (h.aggregate f (some e)) noFault_nil
  compare _ _ _ := .step fun _ _ => trivial
  isNull _ := .step fun _ _ => trivial
  isNotNull _ := .step fun _ _ => trivial
  between _ _ _ := .step fun _ _ => trivial
  isIn _ _ := .step fun _ _ => trivial
  both _ _ := .step fun _ _ => trivial
  either _ _ := .step fun _ _ => trivial
  always := .step fun _ _ => trivial
  groupBy _ := .step fun _ _ => trivial
  having _ := .step fun _ _ => trivial

/-- **A query is lowered exactly if it is valid**, on every target that refuses nothing and from
every state. Otherwise lowering fails with the first fault of the query. -/
theorem apply_ok_iff_valid {t : Target σ ε κ} (h : t.RefusesNothing) (q : Query) (s : σ) :
    let outcome := ((t.apply q).run.run s).1
    ((∃ l, outcome = .ok l) ↔ q.Valid) ∧ ∀ e, outcome = .error e ↔ q.faults.head? = some e := by
  intro outcome
  have herror : errorOf outcome = q.faults.head? := by
    rw [(h.answers.apply q s trivial).2, error?_of_none, Query.faults, List.head?_filterMap]
  constructor
  · rw [← errorOf_eq_none_iff, herror, List.head?_eq_none_iff, q.faults_eq_nil_iff,
      q.noFault_demands_iff]
  · intro e
    rw [← errorOf_eq_some_iff, herror]

/-- A query with four faults. The first one is that `IN` compares two operands; that the left one of
these is `*` comes after it. -/
def faultyQuery : Query where
  condition := .allOf [.compare (.aggregate .count .wildcard) .gte (.literal (.integer 2)) .inner,
    .anyOf [.nullTest (.path ⟨["team", "*"]⟩) .isNotNull .left,
      .compare (.path .wildcard) .isIn (.literal (.string "x")) .inner]]
  having := some (.nullTest (.aggregate .sum .wildcard) .isNull .inner)
  grouping := some [.path .wildcard]

theorem apply_ok_iff_valid_faultyQuery : (recorder .none).RefusesNothing ∧ ¬faultyQuery.Valid ∧
    (((recorder .none).apply faultyQuery).run.run []).1 =
      .error (.unsupportedOperator .isIn .binary) := by
  have hnothing : (recorder .none).RefusesNothing :=
    ⟨fun p j record => ⟨_, _, rfl⟩, fun f e record => ⟨_, _, rfl⟩⟩
  obtain ⟨hok, herror⟩ := apply_ok_iff_valid hnothing faultyQuery []
  have hfirst := (herror (.unsupportedOperator .isIn .binary)).mpr rfl
  refine ⟨hnothing, fun hvalid => ?_, hfirst⟩
  obtain ⟨l, hl⟩ := hok.mpr hvalid
  cases hl.symm.trans hfirst

end Target

end FilterQuery
