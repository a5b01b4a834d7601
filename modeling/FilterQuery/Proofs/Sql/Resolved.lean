import FilterQuery.Proofs.Sql.Translated
import FilterQuery.Target.Record

/-!
# Paths after any calls

A target for SQL trees is asked for paths while it collects joins, and it may have been asked for
anything before. `Target.afterAll` is the state after some calls. No call changes the schema
(`schema_afterAll`), and so the answer for a path is the same as on a new target: main result
`resolve_after_calls`. On a schema that has been checked, a walk along a path never leaves the
tables that are defined, however long it is and whether the relations run in circles or not
(`Schema.isSome_table?_of_tableAt?`).
-/

set_option autoImplicit false

namespace FilterQuery

/-! ## Calls on a target -/

namespace Target

variable {σ ε κ : Type}

/-- The state of a target after a call, whether it is refused or not. -/
def after (t : Target σ ε κ) (s : σ) : Call ε κ → σ
  | .field p j => ((t.field p j).run s).2
  | .literal l => ((t.literal l).run s).2
  | .aggregate f e => ((t.aggregate f e).run s).2
  | .compare o l r => ((t.compare o l r).run s).2
  | .isNull e => ((t.isNull e).run s).2
  | .isNotNull e => ((t.isNotNull e).run s).2
  | .between e l h => ((t.between e l h).run s).2
  | .isIn e vs => ((t.isIn e vs).run s).2
  | .both l r => ((t.both l r).run s).2
  | .either l r => ((t.either l r).run s).2
  | .always => (t.always.run s).2
  | .groupBy es => ((t.groupBy es).run s).2
  | .having k => ((t.having k).run s).2

/-- The state of a target after some calls, one after the other. -/
def afterAll (t : Target σ ε κ) (s : σ) (calls : List (Call ε κ)) : σ := calls.foldl t.after s

end Target

namespace Sql

/-- **No call changes the schema.** -/
theorem schema_after (s : Scope) (call : Call Expr Predicate) :
    (sqlTarget.after s call).schema = s.schema := by
  cases call with
  | field p j => exact (s.resolve_ends p j).2
  | literal | aggregate | compare | isNull | isNotNull | between | isIn | both | either | always
  | groupBy | having => rfl

theorem schema_afterAll (s : Scope) (calls : List (Call Expr Predicate)) :
    (sqlTarget.afterAll s calls).schema = s.schema := by
  induction calls generalizing s with
  | nil => rfl
  | cons call calls ih => exact (ih (sqlTarget.after s call)).trans (schema_after s call)

/-! ## Tables on the way -/

namespace Schema

variable {schema : Schema}

/-- Wherever a route of a checked schema leads, there is a table. -/
theorem isSome_table?_of_tableAt? (hcheck : schema.check = .ok ()) {route : List String}
    {table : String} (h : schema.tableAt? route = some table) :
    (schema.table? table).isSome = true := by
  rcases List.eq_nil_or_concat route with rfl | ⟨before, name, rfl⟩
  · obtain rfl := Option.some.inj h
    exact check_root hcheck
  · rw [List.concat_eq_append, tableAt?_concat] at h
    obtain ⟨owner, -, hrelation⟩ := Option.bind_eq_some_iff.mp h
    obtain ⟨r, hr, rfl⟩ := Option.map_eq_some_iff.mp hrelation
    exact check_relation hcheck hr

/-- A path leads to a field if its last name is one that the table at the end of the others
accepts. -/
theorem leadsToField_iff {p : Path} : schema.LeadsToField p ↔
    ∃ relations field table t, p.identifiers = relations ++ [field] ∧
      schema.tableAt? relations = some table ∧ schema.table? table = some t ∧
        (t.columns = [] ∨ field ∈ t.columns) := by
  have haccepts : ∀ (t : Table) (field : String),
      t.hasColumn field = true ↔ t.columns = [] ∨ field ∈ t.columns := by
    simp [Table.hasColumn]
  constructor
  · rintro ⟨table, field, htable, hfield, t, ht, hcolumn⟩
    obtain ⟨relations, hpath⟩ := List.getLast?_eq_some_iff.mp hfield
    rw [Path.relations, hpath, List.dropLast_concat] at htable
    exact ⟨relations, field, table, t, hpath, htable, ht, (haccepts t field).mp hcolumn⟩
  · rintro ⟨relations, field, table, t, hpath, htable, ht, hcolumn⟩
    refine ⟨table, field, ?_, ?_, t, ht, (haccepts t field).mpr hcolumn⟩
    · rwa [Path.relations, hpath, List.dropLast_concat]
    · rw [Path.field?, hpath, List.getLast?_concat]

end Schema

/-- A walk in any scope comes only to tables that are defined. -/
theorem Scope.isSome_table?_of_walk {s : Scope} (hcheck : s.schema.check = .ok ())
    {kind : JoinKind} {names : List String} {table label : String}
    (h : (walk kind s.schema.root rootLabel names s).1 = .ok (table, label)) :
    (s.schema.table? table).isSome = true := by
  have hend := (walk_ends kind s.schema.root rootLabel names s).1
  rw [h] at hend
  exact Schema.isSome_table?_of_tableAt? hcheck (Schema.follow_root_iff.mp hend.symm)

/-! ## Paths -/

/-- **What a path is resolved to does not depend on what happened before.** On a schema that was
read, and after any calls, a path is granted exactly if its relations can be crossed one after the
other and the last table accepts the field. Otherwise the first relation that the table reached does
not have is refused, or else the field. No walk, along the path or a part of it or elsewhere, comes
to a table that is not defined. -/
theorem resolve_after_calls {json : String} {schema : Schema}
    (hschema : Schema.ofText json = .ok schema) (calls : List (Call Expr Predicate)) (p : Path)
    (j : JoinKind) :
    let scope := sqlTarget.afterAll (.ofSchema schema) calls
    let answer := ((sqlTarget.field p j).run scope).1
    ((∃ e, answer = .ok e) ↔ ∃ relations field table t, p.identifiers = relations ++ [field] ∧
      schema.tableAt? relations = some table ∧ schema.table? table = some t ∧
        (t.columns = [] ∨ field ∈ t.columns)) ∧
    (∀ e, answer = .error e ↔ schema.Refuses p e) ∧
    ∀ names table label, (Scope.walk j schema.root rootLabel names scope).1 = .ok (table, label) →
      (schema.table? table).isSome = true := by
  intro scope answer
  have hscope : scope.schema = schema := schema_afterAll (.ofSchema schema) calls
  have herror : errorOf answer = schema.refusal? p := hscope ▸ (scope.resolve_ends p j).1
  refine ⟨?_, fun e => ?_, fun names table label hwalk => ?_⟩
  · rw [← errorOf_eq_none_iff, herror, Schema.refusal?_eq_none_iff, Schema.leadsToField_iff]
  · rw [← errorOf_eq_some_iff, herror, Schema.refusal?_eq_some_iff]
  · rw [← hscope] at hwalk ⊢
    exact Scope.isSome_table?_of_walk (hscope ▸ Schema.check_of_ofText hschema) hwalk

/-- Calls that cross relations, one of them in vain, and hand over items and a condition. -/
def staffCalls : List (Call Expr Predicate) :=
  [.field ⟨["boss", "rank", "id"]⟩ .left, .field ⟨["boss", "boss", "name"]⟩ .inner,
    .groupBy [.column ⟨"t9", "x"⟩], .always, .having .always]

theorem resolve_after_calls_staffCalls : Schema.ofText staffText = .ok staffSchema ∧
    let scope := sqlTarget.afterAll (.ofSchema staffSchema) staffCalls
    (∃ e, ((sqlTarget.field ⟨["boss", "boss", "team", "name"]⟩ .right).run scope).1 = .ok e) ∧
      ((sqlTarget.field ⟨["boss", "team", "boss", "name"]⟩ .left).run scope).1 =
        .error (.unknownRelation "teams" "boss") := by
  have hschema : Schema.ofText staffText = .ok staffSchema := by decide +kernel
  refine ⟨hschema, ?_, ?_⟩
  · refine (resolve_after_calls hschema staffCalls _ .right).1.mpr ?_
    exact ⟨["boss", "boss", "team"], "name", "teams", ⟨["id", "name"], []⟩, by decide, by decide,
      by decide, by decide⟩
  · refine ((resolve_after_calls hschema staffCalls _ .left).2.1 _).mpr ?_
    have hpath : Path.relations ⟨["boss", "team", "boss", "name"]⟩ = ["boss", "team"] ++ ["boss"] :=
      rfl
    exact .relation hpath (by decide) (by decide)

end Sql

end FilterQuery
