import FilterQuery.Proofs.Outcome
import FilterQuery.Query.OfTree

/-!
# What trees are built into

A part of a tree is built into a value if the values of its own parts are put together; a list of
parts is built item by item. So a list has the value `bs` exactly if its items have the values of
`bs`, one each (`list_eq_ok_iff`), and what is said about the conditions and operands of a tree is
said about its parts first.
-/

set_option autoImplicit false

namespace FilterQuery

/-- What is related to a member of the first list is a member of the second. -/
theorem exists_of_mem_forall₂ {α β : Type} {R : α → β → Prop} {as : List α} {bs : List β}
    (h : List.Forall₂ R as bs) {a : α} (ha : a ∈ as) : ∃ b ∈ bs, R a b := by
  induction h with
  | nil => cases ha
  | cons hab _ ih =>
      rcases List.mem_cons.mp ha with rfl | ha
      · exact ⟨_, List.mem_cons_self, hab⟩
      · obtain ⟨b, hb, hab⟩ := ih ha
        exact ⟨b, List.mem_cons_of_mem _ hb, hab⟩

end FilterQuery

namespace FilterQuery.Tree

/-! ## Lists of a tree -/

theorem values_eq_ok_iff {vs : List Value} {os : List Operand} :
    values vs = .ok os ↔ List.Forall₂ (fun v o => value v = .ok o) vs os :=
  list_eq_ok_iff value values rfl fun _ _ => rfl

theorem selectables_eq_ok_iff {vs : List Selectable} {os : List Operand} :
    selectables vs = .ok os ↔ List.Forall₂ (fun v o => selectable v = .ok o) vs os :=
  list_eq_ok_iff selectable selectables rfl fun _ _ => rfl

theorem primaries_eq_ok_iff {ps : List Primary} {cs : List Condition} :
    primaries ps = .ok cs ↔ List.Forall₂ (fun p c => primary p = .ok c) ps cs :=
  list_eq_ok_iff primary primaries rfl fun _ _ => rfl

theorem conjunctions_eq_ok_iff {d : List (List Primary)} {cs : List Condition} :
    conjunctions d = .ok cs ↔
      List.Forall₂ (fun ps c => (primaries ps).map Condition.allOf = .ok c) d cs := by
  refine list_eq_ok_iff (fun ps => (primaries ps).map .allOf) conjunctions rfl fun ps pss => ?_
  rw [conjunctions]
  cases primaries ps <;> rfl

/-- A disjunction is built term by term, and each conjunction becomes one node. -/
theorem conjunctions_eq_ok_iff_terms {d : List (List Primary)} {cs : List Condition} :
    conjunctions d = .ok cs ↔ ∃ css : List (List Condition), cs = css.map .allOf ∧
      List.Forall₂ (List.Forall₂ fun p c => primary p = .ok c) d css := by
  rw [conjunctions_eq_ok_iff]
  simp only [map_eq_ok_iff, primaries_eq_ok_iff]
  constructor
  · intro h
    induction h with
    | nil => exact ⟨[], rfl, .nil⟩
    | cons hps _ ih =>
        obtain ⟨es, hes, rfl⟩ := hps
        obtain ⟨css, rfl, hcss⟩ := ih
        exact ⟨es :: css, rfl, .cons hes hcss⟩
  · rintro ⟨css, rfl, h⟩
    rw [List.forall₂_map_right_iff]
    exact h.imp fun ps es hes => ⟨es, hes, rfl⟩

theorem conjunctions_eq_ok_map_iff {d : List (List Primary)} {css : List (List Condition)} :
    conjunctions d = .ok (css.map .allOf) ↔
      List.Forall₂ (List.Forall₂ fun p c => primary p = .ok c) d css := by
  rw [conjunctions_eq_ok_iff_terms]
  constructor
  · rintro ⟨css', heq, hall⟩
    have hinj : Function.Injective Condition.allOf := fun _ _ h => Condition.allOf.inj h
    rwa [List.map_injective_iff.mpr hinj heq]
  · exact fun hall => ⟨css, rfl, hall⟩

/-! ## Queries -/

theorem condition_eq_ok_iff {d : Disjunction} {c : Condition} :
    condition d = .ok c ↔ ∃ cs, conjunctions d = .ok cs ∧ .anyOf cs = c :=
  map_eq_ok_iff

theorem ofTree_eq_ok_iff {r : Root} {q : Query} : Query.ofTree r = .ok q ↔
    condition r.condition = .ok q.condition ∧ condition? r.having = .ok q.having ∧
      grouping? r.grouping = .ok q.grouping := by
  rw [Query.ofTree]
  simp only [bind_eq_ok_iff]
  constructor
  · rintro ⟨condition, hcondition, having, hhaving, grouping, hgrouping, ⟨⟩⟩
    exact ⟨hcondition, hhaving, hgrouping⟩
  · rintro ⟨hcondition, hhaving, hgrouping⟩
    exact ⟨_, hcondition, _, hhaving, _, hgrouping, rfl⟩

end FilterQuery.Tree
