import FilterQuery.Sql.Scope

/-!
# Columns of paths

A scope only grows while a query is lowered: `Scope.Extends` says that joins have been added, and
`Scope.Joined` that nothing else has changed. In a scope a path has a column (`Scope.Names`): the
field at its end, in the table to which the joins of its relations lead from the root. It keeps this
column when the scope grows, and the column that is resolved for a path is the one it has
(`resolve_names`).

`Makes x P` says that whatever the lowering `x` makes has the property `P` in the scope it leaves,
and in every scope that this grows to. The second part is what sequencing needs: what has been made
first still has its property after more has been made.
-/

set_option autoImplicit false

namespace FilterQuery.Sql

namespace Scope

/-! ## Scopes that grow -/

/-- The scope has grown by joins. -/
structure Extends (s t : Scope) : Prop where
  schema_eq : t.schema = s.schema
  crossings : s.crossings <+: t.crossings

/-- The scope has grown by joins, and by nothing else. -/
structure Joined (s t : Scope) : Prop extends Extends s t where
  grouping_eq : t.grouping = s.grouping
  having_eq : t.having = s.having

variable {s t u : Scope}

theorem Extends.refl (s : Scope) : s.Extends s := ⟨rfl, List.prefix_rfl⟩

theorem Extends.trans (h : s.Extends t) (h' : t.Extends u) : s.Extends u :=
  ⟨h'.schema_eq.trans h.schema_eq, h.crossings.trans h'.crossings⟩

theorem Joined.refl (s : Scope) : s.Joined s := ⟨.refl s, rfl, rfl⟩

theorem Joined.trans (h : s.Joined t) (h' : t.Joined u) : s.Joined u :=
  ⟨h.toExtends.trans h'.toExtends, h'.grouping_eq.trans h.grouping_eq,
    h'.having_eq.trans h.having_eq⟩

theorem Extends.crossing?_eq_some (h : s.Extends t) {parent name : String} {c : Crossing}
    (hc : s.crossing? parent name = some c) : t.crossing? parent name = some c :=
  h.crossings.find?_eq_some hc

/-! ## The column of a path -/

/-- The label of the table to which relations lead from the one with the given label. -/
def labelFrom? (s : Scope) (label : String) : List String → Option String
  | [] => some label
  | name :: names =>
      match s.crossing? label name with
      | some c => s.labelFrom? c.join.label names
      | none => none

theorem Extends.labelFrom?_eq_some (h : s.Extends t) {label label' : String}
    {names : List String} (hlabel : s.labelFrom? label names = some label') :
    t.labelFrom? label names = some label' := by
  induction names generalizing label with
  | nil => exact hlabel
  | cons name names ih =>
      rw [labelFrom?] at hlabel
      cases hc : s.crossing? label name with
      | none =>
          rw [hc] at hlabel
          cases hlabel
      | some c =>
          rw [hc] at hlabel
          rw [labelFrom?, h.crossing?_eq_some hc]
          exact ih hlabel

/-- In the scope, the path has the column. -/
structure Names (s : Scope) (p : Path) (c : Column) : Prop where
  label : s.labelFrom? rootLabel p.relations = some c.label
  field : p.field? = some c.name

theorem Extends.names (h : s.Extends t) {p : Path} {c : Column} (hc : s.Names p c) :
    t.Names p c :=
  ⟨h.labelFrom?_eq_some hc.label, hc.field⟩

/-! ## Resolving a path -/

/-- A crossed relation is found under the label it was given. -/
theorem cross_joined (s : Scope) (kind : JoinKind) (parent name : String) (r : Relation) :
    s.Joined (s.cross kind parent name r).2 ∧
      ∃ c, (s.cross kind parent name r).2.crossing? parent name = some c ∧
        c.join.label = (s.cross kind parent name r).1 := by
  rw [cross]
  cases hc : s.crossing? parent name with
  | some c => exact ⟨.refl s, c, hc, rfl⟩
  | none =>
      refine ⟨⟨⟨rfl, List.prefix_append _ _⟩, rfl, rfl⟩, ?_⟩
      refine ⟨⟨name, ⟨kind, r.table, labelOf (s.crossings.length + 1), parent, r.localKey,
        r.foreignKey⟩⟩, ?_, rfl⟩
      rw [crossing?] at hc
      rw [crossing?, List.find?_append, hc]
      simp

/-- The end of a walk is found again by following its relations. -/
theorem walk_joined {s t : Scope} {kind : JoinKind} {names : List String}
    {table label table' label' : String}
    (h : walk kind table label names s = (.ok (table', label'), t)) :
    s.Joined t ∧ t.labelFrom? label names = some label' := by
  induction names generalizing table label s with
  | nil =>
      rw [walk] at h
      cases h
      exact ⟨.refl _, rfl⟩
  | cons name names ih =>
      rw [walk] at h
      cases hr : s.schema.relation? table name with
      | none =>
          rw [hr] at h
          cases h
      | some r =>
          rw [hr] at h
          change walk kind r.table (s.cross kind label name r).1 names
            (s.cross kind label name r).2 = _ at h
          obtain ⟨hjoined, c, hc, hlabel⟩ := cross_joined s kind label name r
          obtain ⟨hrest, hend⟩ := ih h
          refine ⟨hjoined.trans hrest, ?_⟩
          rw [labelFrom?, hrest.crossing?_eq_some hc]
          simp only [hlabel]
          exact hend

/-- **The column resolved for a path is the one it has.** -/
theorem resolve_names {p : Path} {kind : JoinKind} {e : Expr}
    (h : s.resolve p kind = (.ok e, t)) :
    s.Joined t ∧ ∃ c, e = .column c ∧ t.Names p c := by
  rw [resolve] at h
  cases hfield : p.field? with
  | none =>
      rw [hfield] at h
      cases h
  | some field =>
      rw [hfield] at h
      rcases hwalk : walk kind s.schema.root rootLabel p.relations s with ⟨e' | ⟨table, label⟩, s'⟩
      · rw [hwalk] at h
        cases h
      · rw [hwalk] at h
        obtain ⟨hjoined, hlabel⟩ := walk_joined hwalk
        simp only at h
        split at h
        · split at h
          · cases h
            exact ⟨hjoined, ⟨label, field⟩, rfl, hlabel, hfield⟩
          · cases h
        · cases h

end Scope

/-! ## Making values in a scope that grows -/

section Makes

variable {α β : Type} {P : Scope → α → Prop} {Q : Scope → β → Prop}

/-- Whatever the lowering makes has the property from then on. -/
def Makes (x : Lowering Scope α) (P : Scope → α → Prop) : Prop :=
  ∀ s a s', x.run.run s = (.ok a, s') → s.Joined s' ∧ ∀ t, s'.Extends t → P t a

theorem Makes.pure {a : α} (h : ∀ t, P t a) : Makes (Pure.pure a) P := by
  intro s b s' hrun
  cases hrun
  exact ⟨.refl _, fun t _ => h t⟩

theorem Makes.fail (e : ApplyError) : Makes (.fail e) P := nofun

/-- An operation that leaves the scope as it is. -/
theorem Makes.step {a : α} (h : ∀ t, P t a) : Makes (.step (Pure.pure a)) P := by
  intro s b s' hrun
  cases hrun
  exact ⟨.refl _, fun t _ => h t⟩

/-- What is made second may rely on the property of what has been made first. -/
theorem Makes.bind {x : Lowering Scope α} {f : α → Lowering Scope β} (hx : Makes x P)
    (hf : ∀ a, Makes (f a) fun t b => P t a → Q t b) : Makes (x >>= f) Q := by
  intro s b s' hrun
  obtain ⟨a, s₁, hfirst, hsecond⟩ := Lowering.run_bind_ok hrun
  obtain ⟨hjoined, hP⟩ := hx s a s₁ hfirst
  obtain ⟨hjoined', hQ⟩ := hf a s₁ b s' hsecond
  exact ⟨hjoined.trans hjoined', fun t ht => hQ t ht (hP t (hjoined'.toExtends.trans ht))⟩

theorem Makes.imp {x : Lowering Scope α} {P' : Scope → α → Prop} (hx : Makes x P)
    (h : ∀ t a, P t a → P' t a) : Makes x P' := by
  intro s a s' hrun
  obtain ⟨hjoined, hP⟩ := hx s a s' hrun
  exact ⟨hjoined, fun t ht => h t a (hP t ht)⟩

end Makes

/-- A field that the target grants is one that the scope resolves. -/
theorem resolve_of_field {p : Path} {j : JoinKind} {s t : Scope} {e : Expr}
    (h : (Lowering.attempt (sqlTarget.field p j)).run.run s = (.ok e, t)) :
    s.resolve p j = (.ok e, t) := by
  simp only [Lowering.attempt, sqlTarget, ExceptT.run, StateT.run] at h
  split at h
  · cases h
    assumption
  · cases h

/-- Resolving a path makes its column. -/
theorem makes_field (p : Path) (j : JoinKind) :
    Makes (.attempt (sqlTarget.field p j)) fun t e => ∃ c, e = .column c ∧ t.Names p c := by
  intro s e s' hrun
  obtain ⟨hjoined, c, rfl, hc⟩ := Scope.resolve_names (resolve_of_field hrun)
  exact ⟨hjoined, fun t ht => ⟨c, rfl, ht.names hc⟩⟩

end FilterQuery.Sql
