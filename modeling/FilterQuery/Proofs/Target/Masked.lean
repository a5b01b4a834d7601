import FilterQuery.Target

/-!
# Masked queries

`Query.mask l q` is the query `q` with the literal `l` in the place of every literal operand. A
target sees the literals of a query only through its operation `literal`, so lowering the masked
query is lowering the query itself to a target that takes every literal for `l`
(`Target.apply_mask`).
-/

set_option autoImplicit false

namespace FilterQuery

/-! ## Masks -/

variable (l : Literal)

/-- The operand, with `l` in the place of a literal. -/
def Operand.mask : Operand → Operand
  | .path p => .path p
  | .literal _ => .literal l
  | .aggregate f p => .aggregate f p

mutual

/-- The condition, with `l` in the place of every literal. -/
def Condition.mask : Condition → Condition
  | .anyOf cs => .anyOf (Condition.maskAll cs)
  | .allOf cs => .allOf (Condition.maskAll cs)
  | .compare a o b j => .compare (a.mask l) o (b.mask l) j
  | .isIn a vs j => .isIn (a.mask l) (vs.map (Operand.mask l)) j
  | .between a b c j => .between (a.mask l) (b.mask l) (c.mask l) j
  | .nullTest a o j => .nullTest (a.mask l) o j

/-- The conditions, with `l` in the place of every literal. -/
def Condition.maskAll : List Condition → List Condition
  | [] => []
  | c :: cs => Condition.mask c :: Condition.maskAll cs

end

/-- The query, with `l` in the place of every literal. -/
def Query.mask (q : Query) : Query :=
  ⟨q.condition.mask l, q.having.map (Condition.mask l), q.grouping.map (List.map (Operand.mask l))⟩

/-! ## Lowering a masked query -/

namespace Target

variable {σ ε κ : Type} (t : Target σ ε κ)

/-- The target that takes every literal for `l`. -/
def fixing : Target σ ε κ := { t with literal := fun _ => t.literal l }

theorem lowerOperand_mask (j : JoinKind) (o : Operand) :
    t.lowerOperand j (o.mask l) = (t.fixing l).lowerOperand j o := by
  cases o <;> rfl

theorem lowerOperands_mask (j : JoinKind) (os : List Operand) :
    t.lowerOperands j (os.map (Operand.mask l)) = (t.fixing l).lowerOperands j os := by
  induction os with
  | nil => rfl
  | cons o os ih =>
      rw [List.map_cons, lowerOperands, lowerOperands, lowerOperand_mask, ih]

/-- The children of a node, when each of them is lowered as it should be. -/
theorem lowerRest_maskAll (combine : κ → κ → StateM σ κ) {cs : List Condition}
    (hcs : ∀ c ∈ cs, t.lower (c.mask l) = (t.fixing l).lower c) (first : κ) :
    t.lowerRest combine first (Condition.maskAll l cs) =
      (t.fixing l).lowerRest combine first cs := by
  induction cs generalizing first with
  | nil => rw [Condition.maskAll, lowerRest, lowerRest]
  | cons c cs ih =>
      obtain ⟨hc, hcs⟩ := List.forall_mem_cons.mp hcs
      rw [Condition.maskAll, lowerRest, lowerRest, hc]
      simp only [ih hcs]

theorem lower_mask (c : Condition) : t.lower (c.mask l) = (t.fixing l).lower c := by
  induction c using Condition.rec' with
  | anyOf cs ih =>
      cases cs with
      | nil =>
          rw [Condition.mask, Condition.maskAll, lower, lower]
          rfl
      | cons c cs =>
          -- the operations that combine children are the same ones in both targets
          obtain ⟨hc, hcs⟩ := List.forall_mem_cons.mp ih
          rw [Condition.mask, Condition.maskAll, lower, lower, hc]
          simp only [lowerRest_maskAll l t t.either hcs]
          rfl
  | allOf cs ih =>
      cases cs with
      | nil =>
          rw [Condition.mask, Condition.maskAll, lower, lower]
          rfl
      | cons c cs =>
          obtain ⟨hc, hcs⟩ := List.forall_mem_cons.mp ih
          rw [Condition.mask, Condition.maskAll, lower, lower, hc]
          simp only [lowerRest_maskAll l t t.both hcs]
          rfl
  | compare a o b j =>
      rw [Condition.mask, lower, lower, lowerCompare, lowerCompare, lowerOperand_mask,
        lowerOperand_mask]
      rfl
  | isIn a vs j =>
      rw [Condition.mask, lower, lower, lowerIsIn, lowerIsIn, lowerOperand_mask,
        lowerOperands_mask]
      rfl
  | between a b c j =>
      rw [Condition.mask, lower, lower, lowerBetween, lowerBetween, lowerOperand_mask,
        lowerOperand_mask, lowerOperand_mask]
      rfl
  | nullTest a o j =>
      rw [Condition.mask, lower, lower, lowerNullTest, lowerNullTest, lowerOperand_mask]
      rfl

theorem lowerHaving_mask (having : Option Condition) :
    t.lowerHaving (having.map (Condition.mask l)) = (t.fixing l).lowerHaving having := by
  cases having with
  | none => rfl
  | some c =>
      rw [Option.map_some, lowerHaving, lowerHaving, lower_mask]
      rfl

theorem lowerGrouping_mask (grouping : Option (List Operand)) :
    t.lowerGrouping (grouping.map (List.map (Operand.mask l))) =
      (t.fixing l).lowerGrouping grouping := by
  match grouping with
  | none => rfl
  | some [] => rfl
  | some (o :: os) =>
      have hitems := lowerOperands_mask l t .inner (o :: os)
      rw [List.map_cons] at hitems
      rw [Option.map_some, List.map_cons, lowerGrouping, lowerGrouping, hitems]
      rfl

/-- **A masked query is lowered as the query is to a target that takes every literal for the same
one.** -/
theorem apply_mask (q : Query) : t.apply (q.mask l) = (t.fixing l).apply q := by
  rw [apply, apply, Query.mask, lower_mask, lowerHaving_mask, lowerGrouping_mask]
  rfl

end Target

end FilterQuery
