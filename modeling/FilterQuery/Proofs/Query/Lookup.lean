import FilterQuery.Proofs.Outcome
import FilterQuery.Proofs.Tree.Written
import FilterQuery.Query.OfTree

/-!
# What the meaning of a tree depends on

The meaning of a tree is put together without further conditions, but for the words and numbers
that are looked up by their lexemes: keywords of joins, operators, aggregate calls and numbers. A
`Lookup` is one of these, and `Root.lookups` lists those of a tree in the order in which they are
made. Main result: the first of them that fails gives the error, and if none does there is a
meaning (`checks_ofTree`).
-/

set_option autoImplicit false

namespace FilterQuery.Tree

/-! ## Lookups -/

/-- A word or a number that is looked up by its lexeme. -/
inductive Lookup where
  | join (t : Token)
  | operator (t : Token)
  | call (c : Call)
  | number (t : Token)
  deriving DecidableEq, Repr

/-- The error that a lookup ends with, unless it succeeds. -/
def Lookup.error? : Lookup → Option BuildError
  | .join t => errorOf (Tree.joinKind (some t))
  | .operator t => errorOf (Tree.operator t)
  | .call c => errorOf (Tree.call c)
  | .number t => errorOf (Tree.number t)

def Selectable.lookups : Selectable → List Lookup
  | .path _ => []
  | .call c => [.call c]

def Value.lookups : Value → List Lookup
  | .path _ | .string _ => []
  | .call c => [.call c]
  | .number t => [.number t]

def Test.lookups : Test → List Lookup
  | .compare operator value => .operator operator :: value.lookups
  | .isIn values => values.flatMap Value.lookups
  | .between low high => low.lookups ++ high.lookups
  | .null | .notNull => []

def Comparison.lookups (c : Comparison) : List Lookup :=
  c.join.toList.map .join ++ (c.left.lookups ++ c.test.lookups)

def Primary.lookups : Primary → List Lookup :=
  fold (fun inner => inner.flatten.flatten) Comparison.lookups

def Disjunction.lookups (d : Disjunction) : List Lookup := d.flatten.flatMap Primary.lookups

/-- The lookups of a query: `HAVING` comes before `GROUP BY`. -/
def Root.lookups (r : Root) : List Lookup :=
  Disjunction.lookups r.condition ++
    (r.having.toList.flatMap Disjunction.lookups ++
      r.grouping.toList.flatMap fun items => items.flatMap Selectable.lookups)

theorem Primary.lookups_group (d : Disjunction) :
    lookups (.group d) = Disjunction.lookups d := by
  rw [lookups, fold_group, ← List.map_flatten, ← List.flatMap_def]
  rfl

theorem Primary.lookups_comparison (c : Comparison) : lookups (.comparison c) = c.lookups :=
  fold_comparison _ _ c

/-! ## The first error wins -/

/-- The result is an error where one of the lookups fails, that of the first one. -/
def Checks {α : Type} (x : Except BuildError α) (ls : List Lookup) : Prop :=
  errorOf x = ls.findSome? Lookup.error?

namespace Checks

variable {α β : Type} {x : Except BuildError α} {ls : List Lookup}

theorem ok (a : α) : Checks (.ok a) [] := rfl

theorem single {l : Lookup} (h : errorOf x = l.error?) : Checks x [l] := by
  rw [Checks, h, List.findSome?_cons]
  cases l.error? <;> rfl

theorem map {f : α → β} (h : Checks x ls) : Checks (x.map f) ls := (errorOf_map f x).trans h

theorem bind {f : α → Except BuildError β} {ls' : List Lookup} (h : Checks x ls)
    (hf : ∀ a, Checks (f a) ls') : Checks (x >>= f) (ls ++ ls') := by
  rw [Checks, List.findSome?_append, ← h]
  exact errorOf_bind hf

theorem exists_ok_iff (h : Checks x ls) : (∃ a, x = .ok a) ↔ ∀ l ∈ ls, l.error? = none := by
  rw [← List.findSome?_eq_none_iff, ← h, errorOf_eq_none_iff]

theorem eq_error_iff (h : Checks x ls) {e : BuildError} : x = .error e ↔ ∃ before l after,
    ls = before ++ l :: after ∧ l.error? = some e ∧ ∀ l' ∈ before, l'.error? = none := by
  rw [← List.findSome?_eq_some_iff, ← h, errorOf_eq_some_iff]

/-- A result that is only put into another form afterwards. -/
theorem bind_ok {f : α → β} (h : Checks x ls) :
    Checks (x >>= fun a => .ok (f a)) ls := by
  simpa only [List.append_nil] using h.bind fun a => .ok (f a)

/-- Items one after the other, where the first error wins. -/
theorem list (f : α → Except BuildError β) (F : List α → Except BuildError (List β))
    (lookups : α → List Lookup) (hnil : F [] = .ok [])
    (hcons : ∀ a as, F (a :: as) = f a >>= fun b => F as >>= fun bs => .ok (b :: bs))
    {as : List α} (h : ∀ a ∈ as, Checks (f a) (lookups a)) :
    Checks (F as) (as.flatMap lookups) := by
  induction as with
  | nil =>
      rw [hnil]
      exact .ok []
  | cons a as ih =>
      obtain ⟨ha, has⟩ := List.forall_mem_cons.mp h
      rw [hcons, List.flatMap_cons]
      exact ha.bind fun b => (ih has).bind_ok

end Checks

/-! ## The parts of a tree -/

theorem checks_joinKind (join : Option Token) :
    Checks (joinKind join) (join.toList.map .join) := by
  cases join with
  | none => exact .ok JoinKind.inner
  | some t => exact .single rfl

theorem checks_selectable (v : Selectable) : Checks (selectable v) v.lookups := by
  cases v with
  | path p => exact .ok _
  | call c => exact .single rfl

theorem checks_value (v : Value) : Checks (value v) v.lookups := by
  cases v with
  | path p => exact .ok _
  | call c => exact .single rfl
  | string t => exact .ok _
  | number t =>
      have hnumber : Checks (number t) [.number t] := .single rfl
      exact hnumber.map

theorem checks_values (vs : List Value) : Checks (values vs) (vs.flatMap Value.lookups) :=
  .list value values Value.lookups rfl (fun _ _ => rfl) fun v _ => checks_value v

theorem checks_selectables (vs : List Selectable) :
    Checks (selectables vs) (vs.flatMap Selectable.lookups) :=
  .list selectable selectables Selectable.lookups rfl (fun _ _ => rfl)
    fun v _ => checks_selectable v

theorem checks_test (left : Operand) (join : JoinKind) (test : Test) :
    Checks (Tree.test left join test) test.lookups := by
  cases test with
  | compare t v =>
      have hoperator : Checks (operator t) [.operator t] := .single rfl
      exact hoperator.bind fun _ => (checks_value v).bind_ok
  | isIn vs => exact (checks_values vs).bind_ok
  | between low high => exact (checks_value low).bind fun _ => (checks_value high).bind_ok
  | null => exact .ok _
  | notNull => exact .ok _

theorem checks_comparison (c : Comparison) : Checks (comparison c) c.lookups :=
  (checks_joinKind c.join).bind fun _ =>
    (checks_selectable c.left).bind fun _ => checks_test _ _ c.test

/-- The terms of a disjunction one after the other. -/
theorem checks_conjunctions {d : Disjunction}
    (h : ∀ c ∈ d, ∀ p ∈ c, Checks (primary p) p.lookups) :
    Checks (conjunctions d) (Disjunction.lookups d) := by
  have hconjunction : ∀ c ∈ d, Checks ((primaries c).map Condition.allOf)
      (c.flatMap Primary.lookups) := by
    intro c hc
    have hterms : Checks (primaries c) (c.flatMap Primary.lookups) :=
      .list primary primaries Primary.lookups rfl (fun _ _ => rfl) (h c hc)
    exact hterms.map
  have hlist : Checks (conjunctions d) (d.flatMap fun c => c.flatMap Primary.lookups) := by
    refine .list (fun c => (primaries c).map .allOf) conjunctions _ rfl ?_ hconjunction
    intro c cs
    rw [conjunctions]
    cases primaries c <;> rfl
  -- the lookups are listed term by term, the conjunctions one by one
  have hflatten : Disjunction.lookups d = d.flatMap fun c => c.flatMap Primary.lookups := by
    rw [Disjunction.lookups, ← List.flatMap_id, List.flatMap_assoc]
    rfl
  rwa [hflatten]

theorem checks_primary (p : Primary) : Checks (primary p) p.lookups := by
  induction p using Primary.rec' with
  | comparison c =>
      rw [Primary.lookups_comparison, primary]
      exact checks_comparison c
  | group d ih =>
      rw [Primary.lookups_group, primary]
      exact (checks_conjunctions ih).map

theorem checks_condition (d : Disjunction) : Checks (condition d) (Disjunction.lookups d) :=
  (checks_conjunctions fun _ _ p _ => checks_primary p).map

/-- **The first failing lookup gives the error.** -/
theorem checks_ofTree (r : Root) : Checks (Query.ofTree r) r.lookups := by
  obtain ⟨d, grouping, having⟩ := r
  refine (checks_condition d).bind fun _ => Checks.bind ?_ fun _ => Checks.bind_ok ?_
  · cases having with
    | none => exact .ok none
    | some e =>
        have hhaving := (checks_condition e).map (f := some)
        simpa [condition?] using hhaving
  · cases grouping with
    | none => exact .ok none
    | some items =>
        have hitems := (checks_selectables items).map (f := some)
        simpa [grouping?] using hitems

end FilterQuery.Tree
