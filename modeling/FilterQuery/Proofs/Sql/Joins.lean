import FilterQuery.Proofs.Sql.Route
import Mathlib.Data.List.Forall2

/-!
# The joins of a scope

A scope that answers requests for paths holds one join for every route it has crossed:
`Scope.Reflects` says that its crossings are those of the first visits, and every step of a walk
keeps this (`cross_reflects`, `walk_reflects`, `resolve_reflects`). Main result: after any requests,
granted or refused, the joins are those of the first visits, and a column carries the label of its
route (`joins_after_requests`).
-/

set_option autoImplicit false

namespace FilterQuery.Sql

/-! ## The join of a visit -/

/-- The join that a visit to a new route makes. -/
def Visit.join (seen : List Visit) (v : Visit) : Join where
  kind := v.kind
  table := v.relation.table
  label := labelIn seen v.route
  parentLabel := labelIn seen v.parent
  localKey := v.relation.localKey
  foreignKey := v.relation.foreignKey

/-- The crossing that a visit to a new route makes. -/
def Visit.crossing (seen : List Visit) (v : Visit) : Crossing := ⟨v.name, v.join seen⟩

/-- A visit between labelled routes makes the same crossing after further visits. -/
theorem Visit.crossing_mono {seen seen' : List Visit} (h : seen <+: seen') {v : Visit}
    (hroute : v.route ∈ labelled seen) (hparent : v.parent ∈ labelled seen) :
    v.crossing seen' = v.crossing seen := by
  simp only [crossing, join, labelIn_mono h hroute, labelIn_mono h hparent]

namespace Scope

/-- The crossings of the scope are those of the visits, each to a route of its own that starts at
the end of a labelled one. -/
structure Reflects (s : Scope) (schema : Schema) (seen : List Visit) : Prop where
  schema_eq : s.schema = schema
  crossings_eq : s.crossings = seen.map (Visit.crossing seen)
  nodup : (routes seen).Nodup
  parents : ∀ v ∈ seen, v.parent ∈ labelled seen

theorem reflects_ofSchema (schema : Schema) : (ofSchema schema).Reflects schema [] where
  schema_eq := rfl
  crossings_eq := rfl
  nodup := List.nodup_nil
  parents := nofun

theorem Reflects.joins_eq {s : Scope} {schema : Schema} {seen : List Visit}
    (h : s.Reflects schema seen) : s.joins = seen.map (Visit.join seen) := by
  rw [joins, h.crossings_eq, List.map_map]
  rfl

section

variable {s : Scope} {schema : Schema} {seen : List Visit}

/-! ## Crossing a relation -/

/-- The labels of the parents and the names of the relations tell visits apart. -/
theorem Reflects.crossing?_eq_some {v : Visit} {c : Crossing} (h : s.Reflects schema seen)
    (hparent : v.parent ∈ labelled seen)
    (hc : s.crossing? (labelIn seen v.parent) v.name = some c) :
    v.route ∈ routes seen ∧ c.join.label = labelIn seen v.route := by
  rw [crossing?, h.crossings_eq] at hc
  have hmem := List.mem_of_find?_eq_some hc
  have htest := List.find?_some hc
  obtain ⟨w, hw, rfl⟩ := List.mem_map.mp hmem
  simp only [Visit.crossing, Visit.join, Bool.and_eq_true, beq_iff_eq] at htest
  have hparents : v.parent = w.parent := labelIn_inj hparent htest.1.symm
  have hroutes : v.route = w.route := by
    rw [Visit.route, Visit.route, hparents, htest.2]
  rw [hroutes]
  exact ⟨List.mem_map_of_mem hw, rfl⟩

theorem Reflects.crossing?_eq_none {v : Visit} (h : s.Reflects schema seen)
    (hc : s.crossing? (labelIn seen v.parent) v.name = none) : v.route ∉ routes seen := by
  rw [crossing?, h.crossings_eq, List.find?_eq_none] at hc
  intro hroute
  obtain ⟨w, hw, hroutes⟩ := List.mem_map.mp hroute
  obtain ⟨hparent, hname⟩ := Visit.route_inj hroutes
  refine hc _ (List.mem_map_of_mem hw) ?_
  simp [Visit.crossing, Visit.join, hparent, hname]

/-- A visit to a new route adds its join. -/
theorem Reflects.concat {v : Visit} (h : s.Reflects schema seen)
    (hparent : v.parent ∈ labelled seen) (hnew : v.route ∉ routes seen) :
    Reflects { s with crossings := s.crossings ++ [v.crossing (seen ++ [v])] } schema
      (seen ++ [v]) := by
  have hgrows : seen <+: seen ++ [v] := List.prefix_append _ _
  have hsubset := (labelled_mono hgrows).subset
  refine ⟨h.schema_eq, ?_, ?_, ?_⟩
  · have hold : seen.map (Visit.crossing (seen ++ [v])) = seen.map (Visit.crossing seen) := by
      refine List.map_congr_left fun w hw => ?_
      have hroute : w.route ∈ labelled seen := List.mem_cons_of_mem _ (List.mem_map_of_mem hw)
      exact Visit.crossing_mono hgrows hroute (h.parents w hw)
    show s.crossings ++ [_] = _
    rw [h.crossings_eq, List.map_append, hold]
    rfl
  · have hnodup := routes_addVisit_nodup (v := v) h.nodup
    rwa [addVisit, if_neg hnew] at hnodup
  · intro w hw
    rcases List.mem_append.mp hw with hw | hw
    · exact hsubset (h.parents w hw)
    · obtain rfl := List.mem_singleton.mp hw
      exact hsubset hparent

/-- **Crossing a relation** makes a join where its route is new, and finds it again where it is
not. -/
theorem cross_reflects {v : Visit} (h : s.Reflects schema seen)
    (hparent : v.parent ∈ labelled seen) :
    (s.cross v.kind (labelIn seen v.parent) v.name v.relation).1 =
        labelIn (addVisit seen v) v.route ∧
      (s.cross v.kind (labelIn seen v.parent) v.name v.relation).2.Reflects schema
        (addVisit seen v) := by
  rw [cross]
  cases hc : s.crossing? (labelIn seen v.parent) v.name with
  | some c =>
      obtain ⟨hroute, hlabel⟩ := h.crossing?_eq_some hparent hc
      rw [addVisit, if_pos hroute]
      exact ⟨hlabel, h⟩
  | none =>
      have hnew := h.crossing?_eq_none hc
      have hlength : s.crossings.length = seen.length := by simp [h.crossings_eq]
      have hlabel : labelOf (s.crossings.length + 1) = labelIn (seen ++ [v]) v.route := by
        rw [hlength, labelIn_concat hnew]
      have hold : labelIn seen v.parent = labelIn (seen ++ [v]) v.parent :=
        (labelIn_mono (List.prefix_append _ _) hparent).symm
      rw [addVisit, if_neg hnew]
      refine ⟨hlabel, ?_⟩
      have hadded := h.concat hparent hnew
      rw [Visit.crossing, Visit.join, ← hlabel, ← hold] at hadded
      exact hadded

/-! ## Walking along a path -/

/-- **A walk makes its visits.** Where it comes to an end, it ends at the label of its route. -/
theorem walk_reflects {kind : JoinKind} {before : List String} {table : String}
    (h : s.Reflects schema seen) (hbefore : before ∈ labelled seen)
    (htable : schema.tableAt? before = some table) (names : List String) :
    let seen' := addVisits seen (schema.visitsFrom kind before names)
    let answer := walk kind table (labelIn seen before) names s
    answer.2.Reflects schema seen' ∧
      ∀ last label, answer.1 = .ok (last, label) →
        before ++ names ∈ labelled seen' ∧ label = labelIn seen' (before ++ names) := by
  induction names generalizing before table seen s with
  | nil =>
      refine ⟨h, fun last label hend => ?_⟩
      obtain ⟨-, rfl⟩ := Prod.mk.inj (Except.ok.inj hend)
      rw [List.append_nil]
      exact ⟨hbefore, rfl⟩
  | cons name names ih =>
      have hnext := Schema.tableAt?_concat_of htable name
      have hvisit := Schema.visit?_of htable kind name
      rw [walk, h.schema_eq]
      cases hr : schema.relation? table name with
      | none =>
          rw [hr, Option.map_none] at hnext hvisit
          rw [Schema.visitsFrom, hvisit, Schema.visitsFrom_eq_nil hnext]
          refine ⟨h, fun last label hend => ?_⟩
          cases hend
      | some r =>
          rw [hr, Option.map_some] at hnext hvisit
          -- the walk goes on from the other end of the relation, which is labelled now
          obtain ⟨hlabel, hcross⟩ := cross_reflects (v := ⟨before, name, r, kind⟩) h hbefore
          have hroute := mem_routes_addVisit seen ⟨before, name, r, kind⟩
          have hrest := ih hcross (List.mem_cons_of_mem _ hroute) hnext
          rw [Schema.visitsFrom, hvisit, List.append_cons before name names]
          simp only at hlabel ⊢
          rw [hlabel]
          exact hrest

/-- What a request that is granted is answered with: the column of its field, under the label of
its route. -/
def Answers (seen : List Visit) (path : Path) (e : Expr) : Prop :=
  ∃ field, path.field? = some field ∧ path.relations ∈ labelled seen ∧
    e = .column ⟨labelIn seen path.relations, field⟩

theorem Answers.mono {seen seen' : List Visit} {path : Path} {e : Expr} (h : Answers seen path e)
    (hgrows : seen <+: seen') : Answers seen' path e := by
  obtain ⟨field, hfield, hroute, rfl⟩ := h
  have hlabel := labelIn_mono hgrows hroute
  exact ⟨field, hfield, (labelled_mono hgrows).subset hroute, by rw [hlabel]⟩

/-- **A request makes the visits of its path**, whether it is granted or not. -/
theorem resolve_reflects (h : s.Reflects schema seen) (path : Path) (kind : JoinKind) :
    let seen' := addVisits seen (schema.visits kind path)
    (resolve path kind s).2.Reflects schema seen' ∧
      ∀ e, (resolve path kind s).1 = .ok e → Answers seen' path e := by
  obtain rfl := h.schema_eq
  have hwalk : (walk kind s.schema.root (labelIn seen []) path.relations s).2.Reflects s.schema
      (addVisits seen (s.schema.visits kind path)) ∧ _ :=
    walk_reflects h List.mem_cons_self s.schema.tableAt?_nil path.relations
  rw [labelIn_nil, List.nil_append] at hwalk
  rw [resolve]
  cases hfield : path.field? with
  | none =>
      -- an empty path has no relations either
      have hempty : path.identifiers = [] := List.getLast?_eq_none_iff.mp hfield
      have hvisits : s.schema.visits kind path = [] := by
        rw [Schema.visits, Path.relations, hempty]
        rfl
      rw [hvisits]
      exact ⟨h, nofun⟩
  | some field =>
      obtain ⟨hwalked, hend⟩ := hwalk
      simp only
      generalize walk kind s.schema.root rootLabel path.relations s = answer at hwalked hend
      obtain ⟨⟨error⟩ | ⟨table, label⟩, t⟩ := answer
      · exact ⟨hwalked, nofun⟩
      · obtain ⟨hroute, hlabel⟩ := hend table label rfl
        have hanswer : Answers (addVisits seen (s.schema.visits kind path)) path
            (.column ⟨label, field⟩) := ⟨field, hfield, hroute, by rw [hlabel]; rfl⟩
        simp only
        -- the last table may refuse the field, but what was crossed stays
        split
        · split
          · refine ⟨hwalked, fun e he => ?_⟩
            obtain rfl := Except.ok.inj he
            exact hanswer
          · exact ⟨hwalked, nofun⟩
        · exact ⟨hwalked, nofun⟩

end

end Scope

/-! ## Requests -/

/-- A request for the column at the end of a path, whose relations are joined with a kind. -/
structure Request where
  path : Path
  kind : JoinKind
  deriving DecidableEq, Repr

/-- The answers of the target to some requests, one after the other. -/
def answer : List Request → StateM Scope (List (Except TargetError Expr))
  | [] => pure []
  | r :: rs => do
      let first ← sqlTarget.field r.path r.kind
      let others ← answer rs
      return first :: others

/-- All visits that some requests make. -/
def Schema.visitsOf (schema : Schema) (rs : List Request) : List Visit :=
  rs.flatMap fun r => schema.visits r.kind r.path

/-- The request is answered with an error, or with the column of its path. -/
def AnswersRequest (seen : List Visit) (r : Request) (a : Except TargetError Expr) : Prop :=
  ∀ e, a = .ok e → Scope.Answers seen r.path e

/-- **Any requests make the visits of their paths**, one after the other. -/
theorem answer_reflects {s : Scope} {schema : Schema} {seen : List Visit}
    (h : s.Reflects schema seen) (rs : List Request) :
    let seen' := addVisits seen (schema.visitsOf rs)
    ((answer rs).run s).2.Reflects schema seen' ∧
      List.Forall₂ (AnswersRequest seen') rs ((answer rs).run s).1 := by
  induction rs generalizing s seen with
  | nil => exact ⟨h, .nil⟩
  | cons r rs ih =>
      obtain ⟨hfirst, hanswer⟩ := Scope.resolve_reflects h r.path r.kind
      obtain ⟨hothers, hanswers⟩ := ih hfirst
      rw [Schema.visitsOf, List.flatMap_cons, addVisits_append]
      -- the column of the first request keeps its label during the others
      have hgrows := prefix_addVisits (addVisits seen (schema.visits r.kind r.path))
        (schema.visitsOf rs)
      exact ⟨hothers, .cons (fun e he => (hanswer e he).mono hgrows) hanswers⟩

/-- What the joins are after some requests that start from an empty scope. -/
structure Bookkeeping (schema : Schema) (rs : List Request) (visits : List Visit)
    (answers : List (Except TargetError Expr)) (joins : List Join) : Prop where
  /-- A request crosses the routes on its way, shortest first, that the schema knows. -/
  crossed : ∀ r ∈ rs, routes (schema.visits r.kind r.path) =
    r.path.relations.inits.tail.takeWhile fun route => (schema.tableAt? route).isSome
  /-- The relation of a visit is the one that the schema knows at the end of its parent. -/
  relation : ∀ v ∈ visits,
    ∃ table, schema.tableAt? v.parent = some table ∧ schema.relation? table v.name = some v.relation
  /-- There is one join for each visit. -/
  joins_eq : joins = visits.map (Visit.join visits)
  distinct : (routes visits).Nodup
  /-- A visit starts at the root or where another one ends. -/
  parent : ∀ v ∈ visits, v.parent = [] ∨ v.parent ∈ routes visits
  label_root : labelIn visits [] = "t0"
  label_route : ∀ i v, visits[i]? = some v → labelIn visits v.route = labelOf (i + 1)
  /-- A granted request is answered with a column under the label of its whole route. -/
  answered : List.Forall₂ (fun r a => ∀ e, a = .ok e → ∃ field, r.path.field? = some field ∧
    e = .column ⟨labelIn visits r.path.relations, field⟩) rs answers
  /-- Columns have the same label where they have the same route. -/
  label_eq_iff : ∀ r r' c c', (r, .ok (.column c)) ∈ rs.zip answers →
    (r', .ok (.column c')) ∈ rs.zip answers →
      (c.label = c'.label ↔ r.path.relations = r'.path.relations)

/-- **The joins are the first visits.** After any requests, granted or refused, a scope that was
empty holds one join for each route crossed, in the order in which they were first crossed. -/
theorem joins_after_requests (schema : Schema) (rs : List Request) :
    Bookkeeping schema rs (firstVisits (schema.visitsOf rs))
      ((answer rs).run (.ofSchema schema)).1 ((answer rs).run (.ofSchema schema)).2.joins := by
  obtain ⟨hreflects, hanswers⟩ := answer_reflects (Scope.reflects_ofSchema schema) rs
  have hcolumn : ∀ r c, (r, .ok (.column c)) ∈ rs.zip ((answer rs).run (.ofSchema schema)).1 →
      r.path.relations ∈ labelled (firstVisits (schema.visitsOf rs)) ∧
        c.label = labelIn (firstVisits (schema.visitsOf rs)) r.path.relations := by
    intro r c hmem
    obtain ⟨field, -, hroute, he⟩ := (List.forall₂_iff_zip.mp hanswers).2 hmem _ rfl
    obtain rfl := Expr.column.inj he
    exact ⟨hroute, rfl⟩
  constructor
  · intro r _
    have hroutes : routes (schema.visits r.kind r.path) = _ :=
      Schema.routes_visitsFrom rfl r.path.relations
    simpa using hroutes
  · intro v hv
    rcases mem_of_mem_addVisits hv with hv | hv
    · cases hv
    · obtain ⟨r, -, hv⟩ := List.mem_flatMap.mp hv
      exact Schema.relation?_of_mem_visitsFrom hv
  · exact hreflects.joins_eq
  · exact hreflects.nodup
  · intro v hv
    exact List.mem_cons.mp (hreflects.parents v hv)
  · rw [labelIn_nil, rootLabel_eq]
  · intro i v hv
    exact labelIn_route hreflects.nodup hv
  · refine hanswers.imp fun r a h e he => ?_
    obtain ⟨field, hfield, -, rfl⟩ := h e he
    exact ⟨field, hfield, rfl⟩
  · intro r r' c c' hc hc'
    obtain ⟨hroute, hlabel⟩ := hcolumn r c hc
    obtain ⟨-, hlabel'⟩ := hcolumn r' c' hc'
    rw [hlabel, hlabel']
    exact ⟨labelIn_inj hroute, congrArg (labelIn _)⟩

end FilterQuery.Sql
