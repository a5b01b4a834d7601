import FilterQuery.Json.Write
import FilterQuery.Proofs.Sql.Joins
import FilterQuery.Proofs.Sql.Names
import FilterQuery.Proofs.Target.Kept

/-!
# Scoped statements

A statement draws on the tables that it lists: the one after `FROM` and those of its joins, each
under a label. `Select.WellScoped` says that the labels differ, that every join starts from a table
listed before it and goes along one of its relations, and that every column is one of the table
that its label stands for.

A scope lists the same tables while a query is lowered. `Scope.Sound` is what all operations keep:
the joins are those of visits that start where earlier ones end (`Schema.Connected`), and the
columns of what has been handed to the scope are columns of its tables. The main result is
`select_wellScoped`.
-/

set_option autoImplicit false

namespace FilterQuery.Sql

/-! ## Columns -/

/-- The columns in an expression. -/
def Expr.columns : Expr → List Column
  | .column c => [c]
  | .param _ => []
  | .aggregate _ e => e.columns
  | .aggregateAll _ => []

/-- The columns in a predicate, from left to right. -/
def Predicate.columns : Predicate → List Column
  | .always => []
  | .compare _ l r => l.columns ++ r.columns
  | .isNull e => e.columns
  | .isNotNull e => e.columns
  | .between e l h => e.columns ++ (l.columns ++ h.columns)
  | .isIn e vs => e.columns ++ vs.flatMap Expr.columns
  | .and l r => l.columns ++ r.columns
  | .or l r => l.columns ++ r.columns

/-- The columns in the clauses of a statement. -/
def Select.columns (s : Select) : List Column :=
  s.condition.toList.flatMap Predicate.columns ++
    (s.grouping.flatMap Expr.columns ++ s.having.toList.flatMap Predicate.columns)

/-! ## Well-scoped statements -/

/-- The table with a name is defined and accepts the name of a column. -/
def Schema.HasColumn (s : Schema) (table name : String) : Prop :=
  ∃ t, s.table? table = some t ∧ t.hasColumn name = true

/-- The tables that a statement lists, each after its label: the one after `FROM`, then those of the
joins. -/
def Select.tables (s : Select) : List (String × String) :=
  (s.label, s.table) :: s.joins.map fun j => (j.label, j.table)

/-- Every name in the statement stands for something in the schema. -/
structure Select.WellScoped (schema : Schema) (s : Select) : Prop where
  table_eq : s.table = schema.root
  label_eq : s.label = "t0"
  /-- No label stands for two tables. -/
  distinct : (s.tables.map Prod.fst).Nodup
  defined : ∀ t ∈ s.tables, (schema.table? t.2).isSome = true
  /-- A join goes along a relation of a table that is listed before it. -/
  join : ∀ i j, s.joins[i]? = some j → ∃ table name r,
    (j.parentLabel, table) ∈ s.tables.take (i + 1) ∧
    schema.relation? table name = some r ∧ j.table = r.table ∧ j.localKey = r.localKey ∧
      j.foreignKey = r.foreignKey
  column : ∀ c ∈ s.columns, ∃ table, (c.label, table) ∈ s.tables ∧ schema.HasColumn table c.name

/-! ## Connected visits -/

namespace Schema

/-- Every visit starts at the root or where an earlier one ends, and goes along the relation with
its name of the table there. -/
def Connected (s : Schema) (seen : List Visit) : Prop :=
  ∀ i v, seen[i]? = some v → v.parent ∈ labelled (seen.take i) ∧
    ∃ table, s.tableAt? v.parent = some table ∧ s.relation? table v.name = some v.relation

variable {s : Schema} {seen : List Visit}

theorem connected_nil : s.Connected [] := nofun

theorem Connected.concat (h : s.Connected seen) {v : Visit} (hparent : v.parent ∈ labelled seen)
    {table : String} (htable : s.tableAt? v.parent = some table)
    (hrelation : s.relation? table v.name = some v.relation) : s.Connected (seen ++ [v]) := by
  intro i w hw
  rcases Nat.lt_trichotomy i seen.length with hi | rfl | hi
  · rw [List.getElem?_append_left hi] at hw
    rw [List.take_append_of_le_length (Nat.le_of_lt hi)]
    exact h i w hw
  · rw [List.getElem?_concat_length] at hw
    obtain rfl := Option.some.inj hw
    rw [List.take_left]
    exact ⟨hparent, table, htable, hrelation⟩
  · rw [List.getElem?_eq_none (by simp; omega)] at hw
    cases hw

/-- A visit ends at the table of its relation. -/
theorem Connected.tableAt?_route (h : s.Connected seen) {v : Visit} (hv : v ∈ seen) :
    s.tableAt? v.route = some v.relation.table := by
  obtain ⟨i, hi⟩ := List.mem_iff_getElem?.mp hv
  obtain ⟨-, table, htable, hrelation⟩ := h i v hi
  rw [Visit.route, tableAt?_concat_of htable, hrelation, Option.map_some]

/-- The visits of a walk that starts where an earlier one has ended keep the visits connected. -/
theorem Connected.addVisits (h : s.Connected seen) {kind : JoinKind} {before : List String}
    {table : String} (hbefore : before ∈ labelled seen) (htable : s.tableAt? before = some table)
    (names : List String) : s.Connected (addVisits seen (s.visitsFrom kind before names)) := by
  induction names generalizing before table seen with
  | nil => exact h
  | cons name names ih =>
      have hnext := tableAt?_concat_of htable name
      have hvisit := visit?_of htable kind name
      rw [visitsFrom]
      cases hr : s.relation? table name with
      | none =>
          rw [hr, Option.map_none] at hnext hvisit
          rw [hvisit, visitsFrom_eq_nil hnext]
          exact h
      | some r =>
          rw [hr, Option.map_some] at hnext hvisit
          rw [hvisit]
          have hadded : s.Connected (addVisit seen ⟨before, name, r, kind⟩) := by
            rw [addVisit]
            split
            · exact h
            · exact h.concat hbefore htable hr
          have hroute := mem_routes_addVisit seen ⟨before, name, r, kind⟩
          exact ih hadded (List.mem_cons_of_mem _ hroute) hnext

end Schema

/-! ## The tables of a scope -/

namespace Scope

/-- The tables that a scope draws on, each after its label. -/
def tables (s : Scope) : List (String × String) :=
  (rootLabel, s.schema.root) :: s.joins.map fun j => (j.label, j.table)

/-- The column belongs to a table of the scope. -/
def Holds (s : Scope) (c : Column) : Prop :=
  ∃ table, (c.label, table) ∈ s.tables ∧ s.schema.HasColumn table c.name

theorem Extends.holds {s t : Scope} (h : s.Extends t) {c : Column} (hc : s.Holds c) :
    t.Holds c := by
  obtain ⟨table, htable, hcolumn⟩ := hc
  refine ⟨table, ?_, ?_⟩
  · have hjoins : s.joins <+: t.joins := h.crossings.map Crossing.join
    rw [tables, h.schema_eq]
    rcases List.mem_cons.mp htable with heq | hmem
    · exact List.mem_cons.mpr (.inl heq)
    · exact List.mem_cons_of_mem _ ((hjoins.map _).subset hmem)
  · rw [h.schema_eq]
    exact hcolumn

/-- The columns of the scope's own expressions are columns of its tables, and its joins are those of
connected visits. -/
structure Sound (schema : Schema) (s : Scope) : Prop where
  tracked : ∃ seen, s.Reflects schema seen ∧ schema.Connected seen
  grouping : ∀ e ∈ s.grouping, ∀ c ∈ e.columns, s.Holds c
  having : ∀ p ∈ s.having, ∀ c ∈ p.columns, s.Holds c

theorem sound_ofSchema (schema : Schema) : Sound schema (ofSchema schema) where
  tracked := ⟨[], reflects_ofSchema schema, Schema.connected_nil⟩
  grouping := nofun
  having := nofun

/-- The table at the end of a visited route is listed under the label of the route, already among
the tables of some of the visits if the route is one of theirs. -/
theorem mem_tables_of_route {schema : Schema} {seen part : List Visit}
    (hseen : schema.Connected seen) (hpart : part ⊆ seen) {route : List String}
    (hroute : route ∈ labelled part) {table : String}
    (htable : schema.tableAt? route = some table) : (labelIn seen route, table) ∈
      (rootLabel, schema.root) :: part.map fun v => (labelIn seen v.route, v.relation.table) := by
  rcases List.mem_cons.mp hroute with rfl | hroute
  · rw [Schema.tableAt?_nil] at htable
    rw [labelIn_nil, Option.some.inj htable]
    exact List.mem_cons_self
  · obtain ⟨v, hv, rfl⟩ := List.mem_map.mp hroute
    rw [hseen.tableAt?_route (hpart hv)] at htable
    obtain rfl := Option.some.inj htable
    exact List.mem_cons_of_mem _ (List.mem_map.mpr ⟨v, hv, rfl⟩)

section

variable {s t : Scope} {schema : Schema} {seen : List Visit}

/-- Which visits a scope reflects is seen from its schema and its crossings. -/
theorem Reflects.congr (h : s.Reflects schema seen) (hschema : t.schema = s.schema)
    (hcrossings : t.crossings = s.crossings) : t.Reflects schema seen where
  schema_eq := hschema.trans h.schema_eq
  crossings_eq := hcrossings.trans h.crossings_eq
  nodup := h.nodup
  parents := h.parents

theorem Reflects.tables_eq (h : s.Reflects schema seen) : s.tables =
    (rootLabel, schema.root) :: seen.map fun v => (labelIn seen v.route, v.relation.table) := by
  rw [tables, h.schema_eq, h.joins_eq, List.map_map]
  rfl

/-- Different tables of a scope have different labels. -/
theorem Reflects.labels_nodup (h : s.Reflects schema seen) : (s.tables.map Prod.fst).Nodup := by
  have hlabels : s.tables.map Prod.fst = (labelled seen).map (labelIn seen) := by
    rw [h.tables_eq, labelled, routes, List.map_cons, List.map_cons, labelIn_nil, List.map_map,
      List.map_map]
    rfl
  have hroot : [] ∉ routes seen := by simp [routes, Visit.route]
  rw [hlabels]
  refine List.Nodup.map_on (fun route hroute route' _ heq => labelIn_inj hroute heq) ?_
  exact List.nodup_cons.mpr ⟨hroot, h.nodup⟩

/-! ## Resolving a path -/

/-- A walk follows the relations of the schema. -/
theorem walk_foldlM {kind : JoinKind} {names : List String} {table label table' label' : String}
    (h : walk kind table label names s = (.ok (table', label'), t)) :
    names.foldlM (fun table name => (s.schema.relation? table name).map Relation.table) table =
      some table' := by
  induction names generalizing table label s with
  | nil =>
      cases h
      rfl
  | cons name names ih =>
      rw [walk] at h
      rw [List.foldlM_cons]
      cases hr : s.schema.relation? table name with
      | none =>
          rw [hr] at h
          cases h
      | some r =>
          rw [hr] at h
          change walk kind r.table (s.cross kind label name r).1 names
            (s.cross kind label name r).2 = _ at h
          have hrest := ih h
          rwa [(cross_joined s kind label name r).1.schema_eq] at hrest

/-- The table at the end of a path that is resolved accepts the field. -/
theorem resolve_hasColumn {p : Path} {j : JoinKind} {e : Expr} (h : s.resolve p j = (.ok e, t)) :
    ∃ table field, s.schema.tableAt? p.relations = some table ∧ p.field? = some field ∧
      s.schema.HasColumn table field := by
  rw [resolve] at h
  cases hfield : p.field? with
  | none =>
      rw [hfield] at h
      cases h
  | some field =>
      rw [hfield] at h
      rcases hwalk : walk j s.schema.root rootLabel p.relations s with ⟨e' | ⟨table, label⟩, s'⟩
      · rw [hwalk] at h
        cases h
      · rw [hwalk] at h
        have hschema : s'.schema = s.schema := (walk_joined hwalk).1.schema_eq
        simp only [hschema] at h
        split at h
        · next u htable =>
            split at h
            · next hcolumn => exact ⟨table, field, walk_foldlM hwalk, rfl, u, htable, hcolumn⟩
            · cases h
        · cases h

/-- **Resolving a path keeps a scope sound**, and gives a column of one of its tables. -/
theorem resolve_sound (hs : s.Sound schema) {p : Path} {j : JoinKind} {e : Expr}
    (h : s.resolve p j = (.ok e, t)) :
    t.Sound schema ∧ s.Extends t ∧ ∀ c ∈ e.columns, t.Holds c := by
  obtain ⟨seen, hreflects, hconnected⟩ := hs.tracked
  obtain ⟨hreflects', hanswer⟩ := resolve_reflects hreflects p j
  have hconnected' : schema.Connected (addVisits seen (schema.visitsFrom j [] p.relations)) :=
    hconnected.addVisits List.mem_cons_self schema.tableAt?_nil p.relations
  obtain ⟨table, field, htable, hfield, hcolumn⟩ := resolve_hasColumn h
  obtain ⟨hjoined, -⟩ := resolve_names h
  -- the walk ends at the table of the path's route, and the field is looked up there
  rw [h] at hreflects' hanswer
  rw [hreflects.schema_eq] at htable hcolumn
  obtain ⟨field', hfield', hroute, rfl⟩ := hanswer e rfl
  obtain rfl := Option.some.inj (hfield.symm.trans hfield')
  refine ⟨⟨⟨_, hreflects', hconnected'⟩, ?_, ?_⟩, hjoined.toExtends, ?_⟩
  · rw [hjoined.grouping_eq]
    exact fun e he c hc => hjoined.toExtends.holds (hs.grouping e he c hc)
  · rw [hjoined.having_eq]
    exact fun p hp c hc => hjoined.toExtends.holds (hs.having p hp c hc)
  · intro c hc
    obtain rfl := List.mem_singleton.mp hc
    refine ⟨table, ?_, ?_⟩
    · rw [hreflects'.tables_eq]
      exact mem_tables_of_route hconnected' (List.Subset.refl _) hroute htable
    · rw [hreflects'.schema_eq]
      exact hcolumn

end

end Scope

/-! ## Lowering -/

/-- The scopes of a schema that are sound, growing by joins. -/
def soundScopes (schema : Schema) : Lowering.Course Scope where
  Sound := Scope.Sound schema
  Later := Scope.Extends
  refl := .refl
  trans := .trans

/-- What holds of the expressions made for some operands, whatever these are, holds of all of
them. -/
theorem forall_of_forall₂ {α β : Type} {P : β → Prop} {as : List α} {bs : List β}
    (h : List.Forall₂ (fun _ b => P b) as bs) : ∀ b ∈ bs, P b := by
  induction h with
  | nil => nofun
  | cons hb _ ih => exact List.forall_mem_cons.mpr ⟨hb, ih⟩

/-- **Lowering keeps a scope sound.** All columns of what is made belong to its tables. -/
theorem sqlTarget_keeps_sound (schema : Schema) :
    sqlTarget.Keeps (soundScopes schema) (fun s _ e => ∀ c ∈ e.columns, s.Holds c)
      (fun s _ p => ∀ c ∈ p.columns, s.Holds c) where
  lasts _ _ _ _ hst h c hc := hst.holds (h c hc)
  lasts_condition _ _ _ _ hst h c hc := hst.holds (h c hc)
  field p j := by
    intro s hs _ e t hrun
    exact Scope.resolve_sound hs (resolve_of_field hrun)
  literal l := .step nofun
  aggregateAll p hp := .step fun s _ => nofun
  aggregate f p e := .step fun s he => he
  compare l o r j a b ho := .step fun s hab => List.forall_mem_append.mpr hab
  isIn l vs j e es := .step fun s hes => by
    refine List.forall_mem_append.mpr ⟨hes.1, fun c hc => ?_⟩
    obtain ⟨v, hv, hc⟩ := List.mem_flatMap.mp hc
    exact forall_of_forall₂ hes.2 v hv c hc
  between l a b j e low high := .step fun s h =>
    List.forall_mem_append.mpr ⟨h.1.1, List.forall_mem_append.mpr ⟨h.1.2, h.2⟩⟩
  isNull l j e := .step fun s he => he
  isNotNull l j e := .step fun s he => he
  always := .step fun s _ => ⟨nofun, nofun⟩
  single s c k hk := ⟨hk, hk⟩
  either cs c k l := .step fun s h => List.forall_mem_append.mpr h
  both cs c k l := .step fun s h => List.forall_mem_append.mpr h
  groupBy os es := by
    intro s hs hes _ t hrun
    cases hrun
    obtain ⟨seen, hreflects, hconnected⟩ := hs.tracked
    refine ⟨⟨⟨seen, hreflects.congr rfl rfl, hconnected⟩, ?_, hs.having⟩, ?_, trivial⟩
    · exact forall_of_forall₂ hes
    · exact ⟨rfl, List.prefix_rfl⟩
  having c k := by
    intro s hs hk _ t hrun
    cases hrun
    obtain ⟨seen, hreflects, hconnected⟩ := hs.tracked
    refine ⟨⟨⟨seen, hreflects.congr rfl rfl, hconnected⟩, hs.grouping, ?_⟩, ?_, trivial⟩
    · rintro _ ⟨⟩
      exact hk
    · exact ⟨rfl, List.prefix_rfl⟩

/-! ## Checked schemas -/

namespace Schema

variable {schema : Schema}

theorem check_of_ofText {json : String} (h : ofText json = .ok schema) : schema.check = .ok () := by
  rw [ofText] at h
  split at h
  · cases h
  · split at h
    · cases h
    · next hcheck =>
        cases h
        exact hcheck

theorem check_root (h : schema.check = .ok ()) : (schema.table? schema.root).isSome = true := by
  rw [check] at h
  split at h
  · cases h
  · next hroot => simpa [Option.isSome_iff_ne_none] using hroot

theorem mem_of_lookup {α : Type} {entries : List (String × α)} {name : String} {a : α}
    (h : entries.lookup name = some a) : (name, a) ∈ entries := by
  obtain ⟨before, after, rfl, -⟩ := List.lookup_eq_some_iff.mp h
  exact List.mem_append_right _ List.mem_cons_self

/-- The relations of a checked schema lead to tables that are defined. -/
theorem check_relation (h : schema.check = .ok ()) {table name : String} {r : Relation}
    (hr : schema.relation? table name = some r) : (schema.table? r.table).isSome = true := by
  obtain ⟨t, ht, hr⟩ := Option.bind_eq_some_iff.mp hr
  have hmem : (table, name, r) ∈ schema.allRelations := by
    refine List.mem_flatMap.mpr ⟨(table, t), mem_of_lookup ht, ?_⟩
    exact List.mem_map.mpr ⟨(name, r), mem_of_lookup hr, rfl⟩
  rw [check] at h
  split at h
  · cases h
  · split at h
    · cases h
    · next hfind =>
        simpa [Option.isSome_iff_ne_none] using List.find?_eq_none.mp hfind _ hmem

end Schema

/-! ## Statements -/

namespace Scope.Sound

variable {s : Scope} {schema : Schema}

theorem defined (hs : s.Sound schema) (hcheck : schema.check = .ok ()) :
    ∀ t ∈ s.tables, (schema.table? t.2).isSome = true := by
  obtain ⟨seen, hreflects, hconnected⟩ := hs.tracked
  intro t ht
  rw [hreflects.tables_eq] at ht
  rcases List.mem_cons.mp ht with rfl | ht
  · exact Schema.check_root hcheck
  · obtain ⟨v, hv, rfl⟩ := List.mem_map.mp ht
    obtain ⟨i, hi⟩ := List.mem_iff_getElem?.mp hv
    obtain ⟨-, table, -, hrelation⟩ := hconnected i v hi
    exact Schema.check_relation hcheck hrelation

/-- A join goes along a relation of a table that is listed before it. -/
theorem join (hs : s.Sound schema) {i : Nat} {j : Join} (hj : s.joins[i]? = some j) :
    ∃ table name r, (j.parentLabel, table) ∈ s.tables.take (i + 1) ∧
      schema.relation? table name = some r ∧ j.table = r.table ∧ j.localKey = r.localKey ∧
        j.foreignKey = r.foreignKey := by
  obtain ⟨seen, hreflects, hconnected⟩ := hs.tracked
  rw [hreflects.joins_eq, List.getElem?_map] at hj
  obtain ⟨v, hv, rfl⟩ := Option.map_eq_some_iff.mp hj
  obtain ⟨hparent, table, htable, hrelation⟩ := hconnected i v hv
  refine ⟨table, v.name, v.relation, ?_, hrelation, rfl, rfl, rfl⟩
  -- labels are those of all visits, but the parent is one of the earlier ones
  rw [hreflects.tables_eq, List.take_succ_cons, ← List.map_take]
  exact mem_tables_of_route hconnected (List.take_subset i seen) hparent htable

/-- The columns of a statement are those of its condition and of what the scope has been handed. -/
theorem column (hs : s.Sound schema) {p : Predicate} (hp : ∀ c ∈ p.columns, s.Holds c) :
    ∀ c ∈ (s.select p).columns, s.Holds c := by
  intro c hc
  rcases List.mem_append.mp hc with hc | hc
  · obtain ⟨p', hp', hc⟩ := List.mem_flatMap.mp hc
    have hp' : (if p = .always then none else some p) = some p' := Option.mem_toList.mp hp'
    split at hp'
    · cases hp'
    · cases hp'
      exact hp c hc
  · rcases List.mem_append.mp hc with hc | hc
    · obtain ⟨e, he, hc⟩ := List.mem_flatMap.mp hc
      exact hs.grouping e he c hc
    · obtain ⟨p', hp', hc⟩ := List.mem_flatMap.mp hc
      exact hs.having p' (Option.mem_toList.mp hp') c hc

end Scope.Sound

/-- **Statements are well scoped.** Where a query is lowered on a checked schema, the statement
that is put together from the scope names only tables, relations and columns of the schema, and
uses every label for the table that it was given to. -/
theorem select_wellScoped {json : String} {schema : Schema}
    (hschema : Schema.ofText json = .ok schema) (q : Query)
    {lowered : Target.Lowered Expr Predicate} {scope : Scope}
    (h : (sqlTarget.apply q).run.run (.ofSchema schema) = (.ok lowered, scope)) :
    (scope.select lowered.condition).WellScoped schema := by
  obtain ⟨hsound, -, hcondition, -⟩ :=
    (sqlTarget_keeps_sound schema).apply q _ (Scope.sound_ofSchema schema) trivial _ _ h
  obtain ⟨seen, hreflects, -⟩ := hsound.tracked
  refine ⟨congrArg Schema.root hreflects.schema_eq, rootLabel_eq, hreflects.labels_nodup, ?_, ?_,
    ?_⟩
  · exact hsound.defined (Schema.check_of_ofText hschema)
  · exact fun i j hj => hsound.join hj
  · intro c hc
    obtain ⟨table, htable, hcolumn⟩ := hsound.column hcondition c hc
    rw [hreflects.schema_eq] at hcolumn
    exact ⟨table, htable, hcolumn⟩

/-- The staff of a company, with their superiors and teams. -/
def staffText : String :=
  Json.toText <| .array [.str "staff", .record [
    ("staff", .array [.array [], .record [
      ("boss", .array [.str "staff", .str "boss_id", .str "id"]),
      ("team", .array [.str "teams", .str "team_id", .str "id"])]]),
    ("teams", .array [.array [.str "id", .str "name"]])]]

/-- The schema that `staffText` writes. -/
def staffSchema : Schema :=
  ⟨"staff", [("staff", ⟨[], [("boss", ⟨"staff", "boss_id", "id"⟩),
    ("team", ⟨"teams", "team_id", "id"⟩)]⟩), ("teams", ⟨["id", "name"], []⟩)]⟩

/-- A query that crosses the same relation from two tables, and the relation of a table to itself
twice. -/
def staffQuery : Query where
  condition := .allOf [
    .compare (.path ⟨["boss", "boss", "name"]⟩) .ne (.path ⟨["name"]⟩) .left,
    .isIn (.path ⟨["boss", "team", "name"]⟩)
      [.literal (.string "x"), .path ⟨["team", "name"]⟩] .inner]
  having := some (.compare (.aggregate .max ⟨["boss", "team", "id"]⟩) .gt
    (.literal (.integer 1)) .inner)
  grouping := some [.path ⟨["team", "id"]⟩]

theorem select_wellScoped_staffQuery : Schema.ofText staffText = .ok staffSchema ∧
    ∃ lowered scope,
      (sqlTarget.apply staffQuery).run.run (.ofSchema staffSchema) = (.ok lowered, scope) ∧
        (scope.select lowered.condition).WellScoped staffSchema := by
  have hschema : Schema.ofText staffText = .ok staffSchema := by decide +kernel
  have hok : ((sqlTarget.apply staffQuery).run.run (.ofSchema staffSchema)).1.isOk := by
    decide +kernel
  cases h : (sqlTarget.apply staffQuery).run.run (.ofSchema staffSchema) with
  | mk outcome scope =>
      rw [h] at hok
      cases outcome with
      | error e => cases hok
      | ok lowered => exact ⟨hschema, lowered, scope, rfl, select_wellScoped hschema staffQuery h⟩

end FilterQuery.Sql
