import FilterQuery.Query

/-!
# Values of conditions

A comparison can be true, false or, where a value is missing, unknown. `Truth` has these three
values with conjunction and disjunction. The value of a condition is taken under an assignment of
values to its comparisons, which are counted from left to right: `Condition.comparisons` lists them,
and `Condition.value v start` is the value where the first of them has the number `start`. A node
without children puts no restriction, so it is true.
-/

set_option autoImplicit false

namespace FilterQuery

/-! ## Truth values -/

/-- The value of a comparison. -/
inductive Truth where
  | yes
  | no
  | unknown
  deriving DecidableEq, Repr

namespace Truth

/-- The conjunction of two values. -/
def and : Truth → Truth → Truth
  | .no, _ => .no
  | .yes, t => t
  | .unknown, .no => .no
  | .unknown, _ => .unknown

/-- The disjunction of two values. -/
def or : Truth → Truth → Truth
  | .yes, _ => .yes
  | .no, t => t
  | .unknown, .yes => .yes
  | .unknown, _ => .unknown

/-- The conjunction of any number of values. -/
def all (ts : List Truth) : Truth :=
  if .no ∈ ts then .no else if .unknown ∈ ts then .unknown else .yes

/-- The disjunction of any number of values. -/
def any (ts : List Truth) : Truth :=
  if .yes ∈ ts then .yes else if .unknown ∈ ts then .unknown else .no

theorem and_assoc (s t u : Truth) : (s.and t).and u = s.and (t.and u) := by
  cases s <;> cases t <;> cases u <;> rfl

theorem or_assoc (s t u : Truth) : (s.or t).or u = s.or (t.or u) := by
  cases s <;> cases t <;> cases u <;> rfl

theorem all_singleton (t : Truth) : all [t] = t := by
  cases t <;> decide

theorem any_singleton (t : Truth) : any [t] = t := by
  cases t <;> decide

theorem all_concat (ts : List Truth) (t : Truth) : all (ts ++ [t]) = (all ts).and t := by
  by_cases hno : Truth.no ∈ ts <;> by_cases hunknown : Truth.unknown ∈ ts <;>
    cases t <;> simp [all, and, hno, hunknown]

theorem any_concat (ts : List Truth) (t : Truth) : any (ts ++ [t]) = (any ts).or t := by
  by_cases hyes : Truth.yes ∈ ts <;> by_cases hunknown : Truth.unknown ∈ ts <;>
    cases t <;> simp [any, or, hyes, hunknown]

end Truth

/-! ## Comparisons -/

namespace Condition

mutual

/-- The comparisons of a condition from left to right. -/
def comparisons : Condition → List Condition
  | .anyOf cs => comparisonsOf cs
  | .allOf cs => comparisonsOf cs
  | .compare l o r j => [.compare l o r j]
  | .isIn l vs j => [.isIn l vs j]
  | .between l a b j => [.between l a b j]
  | .nullTest l o j => [.nullTest l o j]

/-- The comparisons of some conditions from left to right. -/
def comparisonsOf : List Condition → List Condition
  | [] => []
  | c :: cs => c.comparisons ++ comparisonsOf cs

end

theorem comparisonsOf_append (cs ds : List Condition) :
    comparisonsOf (cs ++ ds) = comparisonsOf cs ++ comparisonsOf ds := by
  induction cs with
  | nil => rfl
  | cons c cs ih => simp only [List.cons_append, comparisonsOf, ih, List.append_assoc]

theorem comparisonsOf_singleton (c : Condition) : comparisonsOf [c] = c.comparisons := by
  rw [comparisonsOf, comparisonsOf, List.append_nil]

/-! ## Values -/

mutual

/-- The value of a condition, where `v` gives the values of the comparisons and the first one has
the number `start`. -/
def value (v : Nat → Truth) (start : Nat) : Condition → Truth
  | .anyOf [] => .yes
  | .anyOf (c :: cs) => .any (c.value v start :: valuesOf v (start + c.comparisons.length) cs)
  | .allOf cs => .all (valuesOf v start cs)
  | .compare .. | .isIn .. | .between .. | .nullTest .. => v start

/-- The values of some conditions. -/
def valuesOf (v : Nat → Truth) (start : Nat) : List Condition → List Truth
  | [] => []
  | c :: cs => c.value v start :: valuesOf v (start + c.comparisons.length) cs

end

variable (v : Nat → Truth) (start : Nat)

theorem valuesOf_append (cs ds : List Condition) :
    valuesOf v start (cs ++ ds) =
      valuesOf v start cs ++ valuesOf v (start + (comparisonsOf cs).length) ds := by
  induction cs generalizing start with
  | nil => rfl
  | cons c cs ih =>
      simp only [List.cons_append, valuesOf, comparisonsOf, ih, List.length_append, Nat.add_assoc]

theorem valuesOf_singleton (c : Condition) : valuesOf v start [c] = [c.value v start] := by
  rw [valuesOf, valuesOf]

theorem value_anyOf {cs : List Condition} (h : cs ≠ []) :
    (anyOf cs).value v start = .any (valuesOf v start cs) := by
  cases cs with
  | nil => exact absurd rfl h
  | cons c cs => rw [value, valuesOf]

theorem value_allOf (cs : List Condition) :
    (allOf cs).value v start = .all (valuesOf v start cs) := by
  rw [value]

end Condition

end FilterQuery
