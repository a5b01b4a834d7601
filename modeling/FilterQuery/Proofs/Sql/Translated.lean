import FilterQuery.Proofs.Query.Blank
import FilterQuery.Proofs.Query.Shape
import FilterQuery.Proofs.Sql.Scoped
import FilterQuery.Proofs.Target.Demands
import FilterQuery.Sql.Statement
import Mathlib.Data.List.Basic

/-!
# Which queries become statements

On a schema a path leads to a field, or it is refused: at the first relation that the table reached
so far does not have, or at its end, if the last table does not accept the field
(`Schema.LeadsToField`, `Schema.Refuses`). What has been resolved before does not matter
(`Scope.resolve_ends`).

The query of a text demands nothing else than the fields of its paths (`Query.demands_of_ofText`),
so it becomes a statement if all of them lead to a field, and otherwise the first one that does not
is refused (`toSql_of_ofText`).
-/

set_option autoImplicit false

namespace FilterQuery

/-! ## Paths on a schema -/

namespace Sql

namespace Schema

/-- The relations of the path can be crossed one after the other from the root, and the table at
their end accepts the field. -/
def LeadsToField (s : Schema) (p : Path) : Prop :=
  ∃ table field, s.tableAt? p.relations = some table ∧ p.field? = some field ∧
    s.HasColumn table field

/-- Why a path leads to no field. -/
inductive Refuses (s : Schema) (p : Path) : TargetError → Prop where
  /-- All relations before this one can be crossed, but the table reached does not have it. -/
  | relation {before after : List String} {name owner : String}
      (hpath : p.relations = before ++ name :: after) (howner : s.tableAt? before = some owner)
      (hname : s.relation? owner name = none) : Refuses s p (.unknownRelation owner name)
  /-- All relations can be crossed, but the table reached does not accept the field. -/
  | field {table : String} (htable : s.tableAt? p.relations = some table)
      (hfield : ∀ field ∈ p.field?, ¬ s.HasColumn table field) :
      Refuses s p (.unknownField p.dotted)

/-- The table at the end of a walk along relations, or the first relation that is not known. -/
def follow (s : Schema) (table : String) : List String → Except TargetError String
  | [] => .ok table
  | name :: names =>
      match s.relation? table name with
      | none => .error (.unknownRelation table name)
      | some r => s.follow r.table names

/-- The error of a path that leads to no field. -/
def refusal? (s : Schema) (p : Path) : Option TargetError :=
  match s.follow s.root p.relations with
  | .error e => some e
  | .ok table =>
      if p.field?.any fun field => (s.table? table).any (·.hasColumn field) then none
      else some (.unknownField p.dotted)

variable {s : Schema} {p : Path} {e : TargetError} {table : String} {names : List String}

theorem follow_eq_ok_iff {last : String} : s.follow table names = .ok last ↔
    names.foldlM (fun table name => (s.relation? table name).map Relation.table) table =
      some last := by
  induction names generalizing table with
  | nil => simp [follow]
  | cons name names ih =>
      rw [follow, List.foldlM_cons]
      cases s.relation? table name with
      | none => simp
      | some r => exact ih

theorem follow_append (s : Schema) (table : String) (names more : List String) :
    s.follow table (names ++ more) =
      (s.follow table names).bind fun last => s.follow last more := by
  induction names generalizing table with
  | nil => rfl
  | cons name names ih =>
      rw [List.cons_append, follow, follow]
      cases s.relation? table name with
      | none => rfl
      | some r => exact ih r.table

/-- A walk that fails stops at a relation that is not known. -/
theorem exists_of_follow_eq_error (h : s.follow table names = .error e) :
    ∃ before name after owner, names = before ++ name :: after ∧
      s.follow table before = .ok owner ∧ s.relation? owner name = none ∧
        e = .unknownRelation owner name := by
  induction names generalizing table with
  | nil => cases h
  | cons name names ih =>
      rw [follow] at h
      cases hr : s.relation? table name with
      | none =>
          rw [hr] at h
          cases h
          exact ⟨[], name, names, table, rfl, rfl, hr, rfl⟩
      | some r =>
          rw [hr] at h
          obtain ⟨before, name', after, owner, rfl, howner, hname⟩ := ih h
          refine ⟨name :: before, name', after, owner, rfl, ?_, hname⟩
          rw [follow, hr]
          exact howner

theorem follow_root_iff : s.follow s.root names = .ok table ↔ s.tableAt? names = some table :=
  follow_eq_ok_iff

/-- The test at the end of a path says whether the table has the column. -/
theorem accepts_iff : (p.field?.any fun field => (s.table? table).any (·.hasColumn field)) = true ↔
    ∃ field, p.field? = some field ∧ s.HasColumn table field := by
  simp [Option.any_eq_true, HasColumn]

theorem refusal?_eq_none_iff : s.refusal? p = none ↔ s.LeadsToField p := by
  rw [refusal?, LeadsToField]
  cases h : s.follow s.root p.relations with
  | error e =>
      have hnone : ∀ table, s.tableAt? p.relations ≠ some table := by
        intro table htable
        rw [← follow_root_iff, h] at htable
        cases htable
      simp [hnone]
  | ok table =>
      rw [follow_root_iff] at h
      simp [h, accepts_iff]

/-- A path is refused for one reason. -/
theorem Refuses.refusal?_eq (h : s.Refuses p e) : s.refusal? p = some e := by
  rw [refusal?]
  cases h with
  | relation hpath howner hname =>
      rw [hpath, follow_append, follow_root_iff.mpr howner]
      simp [Except.bind, follow, hname]
  | field htable hfield =>
      have hnot := mt accepts_iff.mp fun ⟨name, hp, hcolumn⟩ => hfield name hp hcolumn
      rw [follow_root_iff.mpr htable]
      exact if_neg hnot

theorem refusal?_eq_some_iff : s.refusal? p = some e ↔ s.Refuses p e := by
  refine ⟨fun h => ?_, Refuses.refusal?_eq⟩
  rw [refusal?] at h
  cases hfollow : s.follow s.root p.relations with
  | error e' =>
      rw [hfollow] at h
      cases h
      obtain ⟨before, name, after, owner, hpath, howner, hname, rfl⟩ :=
        exists_of_follow_eq_error hfollow
      exact .relation hpath (follow_root_iff.mp howner) hname
  | ok table =>
      rw [hfollow] at h
      dsimp only at h
      split at h
      · cases h
      · next hnot =>
          cases h
          refine .field (follow_root_iff.mp hfollow) fun field hp hcolumn => ?_
          exact hnot (accepts_iff.mpr ⟨field, hp, hcolumn⟩)

end Schema

/-! ## Resolving a path -/

namespace Scope

/-- A walk ends as the schema says, whatever has been crossed before. -/
theorem walk_ends (kind : JoinKind) (table label : String) (names : List String) (s : Scope) :
    (walk kind table label names s).1.map Prod.fst = s.schema.follow table names ∧
      (walk kind table label names s).2.schema = s.schema := by
  induction names generalizing table label s with
  | nil => exact ⟨rfl, rfl⟩
  | cons name names ih =>
      rw [walk, Schema.follow]
      cases hr : s.schema.relation? table name with
      | none => exact ⟨rfl, rfl⟩
      | some r =>
          obtain ⟨hend, hschema⟩ := ih r.table (s.cross kind label name r).1
            (s.cross kind label name r).2
          rw [(cross_joined s kind label name r).1.schema_eq] at hend hschema
          exact ⟨hend, hschema⟩

/-- **Whether a path is resolved depends on the schema alone.** -/
theorem resolve_ends (p : Path) (kind : JoinKind) (s : Scope) :
    errorOf (s.resolve p kind).1 = s.schema.refusal? p ∧
      (s.resolve p kind).2.schema = s.schema := by
  obtain ⟨hend, hschema⟩ := walk_ends kind s.schema.root rootLabel p.relations s
  rw [resolve, Schema.refusal?, ← hend]
  cases hfield : p.field? with
  | none =>
      have hrelations : p.relations = [] := by
        rw [Path.relations, List.getLast?_eq_none_iff.mp hfield, List.dropLast_nil]
      rw [hrelations]
      exact ⟨rfl, rfl⟩
  | some field =>
      generalize walk kind s.schema.root rootLabel p.relations s = run at hschema ⊢
      obtain ⟨e | ⟨table, label⟩, t⟩ := run
      · exact ⟨rfl, hschema⟩
      · change t.schema = s.schema at hschema
        simp only [Except.map, Option.any_some, hschema]
        cases s.schema.table? table with
        | none => exact ⟨rfl, hschema⟩
        | some u =>
            by_cases hcolumn : u.hasColumn field = true
            · simp [hcolumn, hschema, errorOf]
            · simp [hcolumn, hschema, errorOf]

end Scope

/-! ## Lowering -/

/-- The target of SQL trees refuses the paths that its schema refuses, and nothing else. -/
theorem sqlTarget_answers (schema : Schema) :
    sqlTarget.Answers (fun s => s.schema = schema) schema.refusal? where
  field p j := by
    rintro s rfl
    obtain ⟨hend, hschema⟩ := s.resolve_ends p j
    simp only [Lowering.attempt, sqlTarget, ExceptT.run, StateT.run]
    generalize s.resolve p j = run at hend hschema ⊢
    obtain ⟨e | a, t⟩ := run
    · exact ⟨hschema, by simp [Demand.error?, errorOf, ← hend]⟩
    · exact ⟨hschema, by simp [Demand.error?, errorOf, ← hend]⟩
  literal l := .step fun _ hs => hs
  aggregateAll _ hs := ⟨hs, rfl⟩
  aggregate f e _ hs := ⟨hs, rfl⟩
  compare o l r := .step fun _ hs => hs
  isNull e := .step fun _ hs => hs
  isNotNull e := .step fun _ hs => hs
  between e l h := .step fun _ hs => hs
  isIn e vs := .step fun _ hs => hs
  both l r := .step fun _ hs => hs
  either l r := .step fun _ hs => hs
  always := .step fun _ hs => hs
  groupBy es := .step fun _ hs => hs
  having p := .step fun _ hs => hs

/-- The error with which a query is not translated is that of its first demand that meets one. -/
theorem errorOf_toSql (q : Query) (schema : Schema) (d : Dialect) :
    errorOf (q.toSql schema d) = q.demands.findSome? (·.error? schema.refusal?) := by
  have hrun := ((sqlTarget_answers schema).apply q (.ofSchema schema) rfl).2
  rw [Query.toSql]
  generalize (sqlTarget.apply q).run.run (.ofSchema schema) = run at hrun ⊢
  obtain ⟨e | lowered, scope⟩ := run
  · exact hrun
  · exact hrun

end Sql

/-! ## The demands of canonical queries -/

/-- The path of all rows is not one of words. -/
theorem Path.Canonical.not_isWildcard {p : Path} (h : p.Canonical) : ¬ p.isWildcard = true := by
  intro hp
  have hstar := h.1 "*" (by simp [beq_iff_eq.mp hp])
  revert hstar
  decide

theorem Operand.Canonical.demands_eq {o : Operand} (h : o.Canonical) :
    o.demands = o.paths.map .field := by
  cases o with
  | path p => rw [demands, if_neg (Path.Canonical.not_isWildcard h), paths, List.map_singleton]
  | literal l => rfl
  | aggregate f p =>
      rw [demands, paths]
      rcases h with hp | ⟨rfl, rfl⟩
      · have hnot := hp.not_isWildcard
        rw [if_neg hnot, if_neg fun h => hnot h.2, List.map_singleton]
      · rfl

/-- The demands of some operands are the fields of their paths. -/
theorem flatMap_demands {os : List Operand} (h : ∀ o ∈ os, o.Canonical) :
    os.flatMap Operand.demands = (os.flatMap Operand.paths).map .field := by
  rw [List.map_flatMap]
  exact List.flatMap_congr fun o ho => (h o ho).demands_eq

namespace Condition

/-- The condition demands the fields of its paths, and nothing else. -/
def DemandsFields (c : Condition) : Prop :=
  c.demands = (c.operands.flatMap Operand.paths).map .field

theorem CanonicalComparison.demandsFields {c : Condition} (h : c.CanonicalComparison) :
    c.DemandsFields := by
  rw [DemandsFields]
  cases c with
  | anyOf cs => cases h
  | allOf cs => cases h
  | compare l o r j =>
      obtain ⟨hl, ho, hr⟩ := h
      rw [operands, ← flatMap_demands (by simp [hl.canonical, hr])]
      simp [demands, OperatorPlace.demands, ho]
  | isIn l vs j =>
      obtain ⟨hl, -, hvs⟩ := h
      rw [operands, ← flatMap_demands (List.forall_mem_cons.mpr ⟨hl.canonical, hvs⟩), demands,
        List.flatMap_cons]
  | between l a b j =>
      obtain ⟨hl, ha, hb⟩ := h
      rw [operands, ← flatMap_demands (by simp [hl.canonical, ha, hb])]
      simp [demands]
  | nullTest l o j =>
      obtain ⟨hl, ho⟩ := h
      rw [operands, ← flatMap_demands (by simp [hl.canonical])]
      simp [demands, OperatorPlace.demands, ho]

theorem demandsFields_anyOf {cs : List Condition} (h : ∀ c ∈ cs, c.DemandsFields) :
    (anyOf cs).DemandsFields := by
  rw [DemandsFields, demands, operands, demandsOf_eq_flatMap, operandsOf_eq_flatMap,
    List.flatMap_assoc, List.map_flatMap]
  exact List.flatMap_congr h

theorem demandsFields_allOf {cs : List Condition} (h : ∀ c ∈ cs, c.DemandsFields) :
    (allOf cs).DemandsFields := demandsFields_anyOf h

theorem Term.demandsFields {n : Nat} {c : Condition} (h : Term n c) : c.DemandsFields := by
  induction h with
  | comparison h => exact h.demandsFields
  | group _ _ _ ih =>
      exact demandsFields_anyOf <| List.forall_mem_map.mpr fun cs hcs =>
        demandsFields_allOf (ih cs hcs)

theorem Canonical.demandsFields {n : Nat} {c : Condition} (h : c.Canonical n) :
    c.DemandsFields := by
  obtain ⟨css, rfl, -, -, hinner⟩ := h
  refine demandsFields_anyOf (List.forall_mem_map.mpr fun cs hcs => demandsFields_allOf ?_)
  exact fun c hc => (hinner cs hcs c hc).demandsFields

end Condition

namespace Query

theorem Canonical.demands_eq {q : Query} (h : q.Canonical) : q.demands = q.paths.map .field := by
  have hgrouping : ∀ o ∈ q.grouping.getD [], o.Canonical := by
    cases hq : q.grouping with
    | none => exact nofun
    | some os => exact fun o ho => ((h.grouping os hq).2 o ho).canonical
  have hhaving : q.having.elim [] Condition.demands =
      ((q.having.elim [] Condition.operands).flatMap Operand.paths).map .field := by
    cases hq : q.having with
    | none => rfl
    | some c => exact (h.having c hq).demandsFields
  rw [demands, paths, operands, h.condition.demandsFields, hhaving, flatMap_demands hgrouping]
  simp only [List.flatMap_append, List.map_append]

/-- **The query of a text demands the fields of its paths, and nothing else.** -/
theorem demands_of_ofText {s : String} {q : Query} (h : ofText s = .ok q) :
    q.demands = q.paths.map .field := by
  cases hs : Text.isBlankText s with
  | false => exact (canonical_of_ofText hs h).1.demands_eq
  | true =>
      rw [ofText_of_isBlankText hs] at h
      cases h
      rfl

end Query

namespace Sql

/-- **When the query of a text is translated.** On every schema and in every dialect it becomes a
statement if all of its paths lead to a field. Otherwise the first path that does not is refused,
and the error is that of the refusal: a relation or a field that is not known. -/
theorem toSql_of_ofText {s : String} {q : Query} (h : Query.ofText s = .ok q) (schema : Schema)
    (d : Dialect) :
    ((∃ statement, q.toSql schema d = .ok statement) ↔ ∀ p ∈ q.paths, schema.LeadsToField p) ∧
    ∀ e, q.toSql schema d = .error e ↔ ∃ before p after refusal,
      q.paths = before ++ p :: after ∧ (∀ p' ∈ before, schema.LeadsToField p') ∧
        schema.Refuses p refusal ∧ e = .target refusal := by
  have hmet : ∀ p, Demand.error? schema.refusal? (.field p) = none ↔ schema.LeadsToField p :=
    fun p => Option.map_eq_none_iff.trans Schema.refusal?_eq_none_iff
  have herror := errorOf_toSql q schema d
  rw [Query.demands_of_ofText h, List.findSome?_map] at herror
  constructor
  · rw [← errorOf_eq_none_iff, herror, List.findSome?_eq_none_iff]
    exact forall₂_congr fun p _ => hmet p
  · intro e
    rw [← errorOf_eq_some_iff, herror, List.findSome?_eq_some_iff]
    constructor
    · rintro ⟨before, p, after, hpaths, herr, hbefore⟩
      obtain ⟨refusal, hrefusal, rfl⟩ := Option.map_eq_some_iff.mp herr
      exact ⟨before, p, after, refusal, hpaths, fun p' hp' => (hmet p').mp (hbefore p' hp'),
        Schema.refusal?_eq_some_iff.mp hrefusal, rfl⟩
    · rintro ⟨before, p, after, refusal, hpaths, hbefore, hrefuses, rfl⟩
      exact ⟨before, p, after, hpaths, Option.map_eq_some_iff.mpr ⟨_, hrefuses.refusal?_eq, rfl⟩,
        fun p' hp' => (hmet p').mpr (hbefore p' hp')⟩

/-- A text whose second path is refused at its second relation. -/
def rankText : String :=
  "boss.team.name = 'x' AND boss.rank.id > 1 GROUP BY team.id HAVING MAX(boss.team.size) > COUNT(*)"

theorem toSql_of_ofText_rankText : ∃ q, Query.ofText rankText = .ok q ∧
    q.toSql staffSchema .mysql = .error (.target (.unknownRelation "staff" "rank")) := by
  have hpaths : (Query.ofText rankText).toOption.map Query.paths = some [⟨["boss", "team", "name"]⟩,
      ⟨["boss", "rank", "id"]⟩, ⟨["boss", "team", "size"]⟩, ⟨["team", "id"]⟩] := by
    decide +kernel
  cases h : Query.ofText rankText with
  | error e =>
      rw [h] at hpaths
      cases hpaths
  | ok q =>
      rw [h] at hpaths
      refine ⟨q, rfl, ((toSql_of_ofText h staffSchema .mysql).2 _).mpr ?_⟩
      refine ⟨[_], _, _, _, Option.some.inj hpaths, List.forall_mem_singleton.mpr ?_, ?_, rfl⟩
      · exact ⟨"teams", "name", by decide, by decide, ⟨["id", "name"], []⟩, by decide, by decide⟩
      · have hrelations : Path.relations ⟨["boss", "rank", "id"]⟩ = ["boss"] ++ ["rank"] := rfl
        exact .relation hrelations (by decide) (by decide)

end Sql

end FilterQuery
