import FilterQuery.Proofs.Tree.Written

/-!
# The tokens that a tree keeps

`AllKept P slots` says that every token that the slots keep has the property `P`. For each part of
a tree there is a lemma on what it says of the part: the marks between the tokens do not matter.
-/

set_option autoImplicit false

namespace FilterQuery.Tree

/-- The tokens that the slots keep have the property. -/
def AllKept (P : Token → Prop) (slots : List Slot) : Prop := ∀ t, .kept t ∈ slots → P t

section

variable {P : Token → Prop} {slots slots' : List Slot}

/-! ## Slots -/

/-- The kept tokens are among those that are written. -/
theorem AllKept.of_spells {ts : List Token} (hspells : Spells slots ts) (h : ∀ t ∈ ts, P t) :
    AllKept P slots := fun t ht => h t (hspells.mem_of_kept ht)

@[simp] theorem allKept_nil : AllKept P [] := nofun

@[simp] theorem allKept_kept_cons {t : Token} :
    AllKept P (.kept t :: slots) ↔ P t ∧ AllKept P slots := by
  simp only [AllKept, List.mem_cons, Slot.kept.injEq]
  constructor
  · intro h
    exact ⟨h t (.inl rfl), fun u hu => h u (.inr hu)⟩
  · rintro ⟨ht, h⟩ u (rfl | hu)
    · exact ht
    · exact h u hu

@[simp] theorem allKept_mark_cons {k : Kind} :
    AllKept P (.mark k :: slots) ↔ AllKept P slots := by
  simp [AllKept]

@[simp] theorem allKept_append :
    AllKept P (slots ++ slots') ↔ AllKept P slots ∧ AllKept P slots' := by
  simp only [AllKept, List.mem_append, or_imp, forall_and]

@[simp] theorem allKept_joined {k : Kind} {parts : List (List Slot)} :
    AllKept P (joined k parts) ↔ ∀ part ∈ parts, AllKept P part := by
  induction parts with
  | nil => simp [joined]
  | cons part parts ih =>
      cases parts with
      | nil => simp
      | cons next parts =>
          rw [joined_cons_cons, allKept_append, allKept_mark_cons, ih]
          simp only [List.forall_mem_cons]

/-! ## Parts of a tree -/

@[simp] theorem allKept_path {p : Path} : AllKept P (Path.written p) ↔ ∀ t ∈ p, P t := by
  rw [Path.written, allKept_joined, List.forall_mem_map]
  simp only [allKept_kept_cons, allKept_nil, and_true]

@[simp] theorem allKept_call {c : Call} :
    AllKept P c.written ↔ P c.function ∧ ∀ p ∈ c.argument, ∀ t ∈ p, P t := by
  obtain ⟨function, argument⟩ := c
  cases argument with
  | none => simp [Call.written, Call.argumentWritten]
  | some p => simp [Call.written, Call.argumentWritten]

theorem allKept_isIn {vs : List Value} :
    AllKept P (Test.written (.isIn vs)) ↔ ∀ v ∈ vs, AllKept P v.written := by
  simp [Test.written]

theorem allKept_between {low high : Value} :
    AllKept P (Test.written (.between low high)) ↔
      AllKept P low.written ∧ AllKept P high.written := by
  simp [Test.written]

theorem allKept_compare {operator : Token} {v : Value} :
    AllKept P (Test.written (.compare operator v)) ↔ P operator ∧ AllKept P v.written := by
  simp [Test.written]

theorem allKept_comparison {c : Comparison} :
    AllKept P c.written ↔
      (∀ t ∈ c.join, P t) ∧ AllKept P c.left.written ∧ AllKept P c.test.written := by
  obtain ⟨join, left, test⟩ := c
  cases join with
  | none => simp [Comparison.written]
  | some t => simp [Comparison.written]

theorem allKept_disjunction {d : Disjunction} :
    AllKept P (Disjunction.written d) ↔ ∀ c ∈ d, ∀ p ∈ c, AllKept P p.written := by
  simp [Disjunction.written, Conjunction.written]

theorem allKept_group {d : Disjunction} :
    AllKept P (Primary.written (.group d)) ↔ ∀ c ∈ d, ∀ p ∈ c, AllKept P p.written := by
  simp [Primary.written_group, allKept_disjunction]

theorem allKept_root {r : Root} :
    AllKept P r.written ↔
      AllKept P (Disjunction.written r.condition) ∧
        (∀ items ∈ r.grouping, ∀ item ∈ items, AllKept P item.written) ∧
          ∀ d ∈ r.having, AllKept P (Disjunction.written d) := by
  obtain ⟨condition, grouping, having⟩ := r
  cases grouping <;> cases having <;> simp [Root.written, groupingWritten, havingWritten]

end

end FilterQuery.Tree
