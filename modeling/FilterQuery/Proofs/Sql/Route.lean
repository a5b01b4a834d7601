import FilterQuery.Sql.Scope
import Mathlib.Data.List.Infix
import Mathlib.Data.List.Nodup

/-!
# Routes through a schema

A route is a list of relation names, crossed one after the other from the root table
(`Schema.tableAt?`). A request for a path makes a `Visit` at every relation it crosses, shortest
route first, up to the first one that the schema does not know (`Schema.visits`).

`firstVisits` keeps of a list of visits those to a new route. `labelIn` numbers routes by these
visits, the empty route before all others; on visited routes it is injective (`labelIn_inj`), and
it does not change when further visits are made (`labelIn_mono`).
-/

set_option autoImplicit false

namespace FilterQuery.Sql

/-! ## Labels -/

theorem labelOf_inj {m n : Nat} (h : labelOf m = labelOf n) : m = n := by
  have hchars : 't' :: Decimal.text m = 't' :: Decimal.text n := by
    simpa [labelOf] using congrArg String.toList h
  exact Decimal.text_inj (List.cons.inj hchars).2

theorem rootLabel_eq : rootLabel = "t0" := by
  rw [rootLabel, labelOf, Decimal.text, Decimal.digits]
  rfl

/-! ## Where a route leads -/

namespace Schema

/-- The table at the end of a route. -/
def tableAt? (s : Schema) (route : List String) : Option String :=
  route.foldlM (fun table name => (s.relation? table name).map Relation.table) s.root

variable (s : Schema)

@[simp] theorem tableAt?_nil : s.tableAt? [] = some s.root := rfl

theorem tableAt?_concat (route : List String) (name : String) :
    s.tableAt? (route ++ [name]) =
      (s.tableAt? route).bind fun table => (s.relation? table name).map Relation.table := by
  simp [tableAt?, List.foldlM_append]

variable {s} {route : List String} {table : String}

theorem tableAt?_concat_of (h : s.tableAt? route = some table) (name : String) :
    s.tableAt? (route ++ [name]) = (s.relation? table name).map Relation.table := by
  rw [tableAt?_concat, h, Option.bind_some]

end Schema

/-! ## Visits -/

/-- A relation crossed at the end of a route, with what the schema says of it and the kind of join
that was asked for. -/
structure Visit where
  parent : List String
  name : String
  relation : Relation
  kind : JoinKind
  deriving DecidableEq, Repr

/-- The route up to and with the relation. -/
def Visit.route (v : Visit) : List String := v.parent ++ [v.name]

/-- The routes of some visits. -/
def routes (vs : List Visit) : List (List String) := vs.map Visit.route

theorem Visit.route_inj {v w : Visit} (h : v.route = w.route) :
    v.parent = w.parent ∧ v.name = w.name := by
  obtain ⟨hparent, hname⟩ := List.append_inj' h rfl
  exact ⟨hparent, List.singleton_inj.mp hname⟩

namespace Schema

variable (s : Schema) (kind : JoinKind)

/-- The visit of a relation at the end of a route, if the schema knows it there. -/
def visit? (parent : List String) (name : String) : Option Visit :=
  (s.tableAt? parent).bind fun table =>
    (s.relation? table name).map fun r => ⟨parent, name, r, kind⟩

/-- The visits on the way along `names` from the end of the route `before`: one for each longer
route that the schema knows. -/
def visitsFrom (before : List String) : List String → List Visit
  | [] => []
  | name :: names =>
      (s.visit? kind before name).toList ++ visitsFrom (before ++ [name]) names

/-- The visits that a request for a path makes. -/
def visits (path : Path) : List Visit := s.visitsFrom kind [] path.relations

variable {s kind}

theorem visit?_of {parent : List String} {table : String} (h : s.tableAt? parent = some table)
    (kind : JoinKind) (name : String) :
    s.visit? kind parent name =
      (s.relation? table name).map fun r => ⟨parent, name, r, kind⟩ := by
  rw [visit?, h, Option.bind_some]

/-- Behind a relation that is not known nothing is visited. -/
theorem visitsFrom_eq_nil {before : List String} (h : s.tableAt? before = none)
    (names : List String) : s.visitsFrom kind before names = [] := by
  induction names generalizing before with
  | nil => rfl
  | cons name names ih =>
      have hnext : s.tableAt? (before ++ [name]) = none := by
        rw [tableAt?_concat, h]
        rfl
      have hvisit : s.visit? kind before name = none := by
        rw [visit?, h]
        rfl
      rw [visitsFrom, hvisit, ih hnext]
      rfl

/-- **A walk visits the routes on its way that the schema knows**, shortest first. -/
theorem routes_visitsFrom {before : List String} (h : (s.tableAt? before).isSome)
    (names : List String) :
    routes (s.visitsFrom kind before names) =
      (names.inits.tail.map (before ++ ·)).takeWhile fun route => (s.tableAt? route).isSome := by
  induction names generalizing before with
  | nil => rfl
  | cons name names ih =>
      -- the longer routes are those on the way from the end of the first one
      have hinits : (name :: names).inits.tail.map (before ++ ·) =
          (before ++ [name]) :: names.inits.tail.map ((before ++ [name]) ++ ·) := by
        cases names <;> simp
      rw [hinits, List.takeWhile_cons, visitsFrom]
      obtain ⟨table, htable⟩ := Option.isSome_iff_exists.mp h
      have hnext := tableAt?_concat_of htable name
      have hvisit := visit?_of htable kind name
      cases hr : s.relation? table name with
      | none =>
          rw [hr, Option.map_none] at hnext hvisit
          rw [hvisit, visitsFrom_eq_nil hnext, hnext]
          rfl
      | some r =>
          rw [hr, Option.map_some] at hnext hvisit
          have hknown : (s.tableAt? (before ++ [name])).isSome := by
            rw [hnext]
            rfl
          rw [hvisit, hnext, ← ih hknown]
          rfl

/-- What a visit says of its relation is what the schema says. -/
theorem relation?_of_mem_visitsFrom {before names : List String} {v : Visit}
    (h : v ∈ s.visitsFrom kind before names) :
    ∃ table, s.tableAt? v.parent = some table ∧ s.relation? table v.name = some v.relation := by
  induction names generalizing before with
  | nil => cases h
  | cons name names ih =>
      rcases List.mem_append.mp h with hfirst | hrest
      · have hvisit : s.visit? kind before name = some v := Option.mem_toList.mp hfirst
        obtain ⟨table, htable, hmap⟩ := Option.bind_eq_some_iff.mp hvisit
        obtain ⟨r, hr, rfl⟩ := Option.map_eq_some_iff.mp hmap
        exact ⟨table, htable, hr⟩
      · exact ih hrest

end Schema

/-! ## First visits -/

/-- Adds a visit, unless its route has been visited before. -/
def addVisit (seen : List Visit) (v : Visit) : List Visit :=
  if v.route ∈ routes seen then seen else seen ++ [v]

/-- Adds visits one after the other. -/
def addVisits (seen vs : List Visit) : List Visit := vs.foldl addVisit seen

/-- The visits to a new route, in their order. -/
def firstVisits (vs : List Visit) : List Visit := addVisits [] vs

section

variable {seen : List Visit}

theorem prefix_addVisit (seen : List Visit) (v : Visit) : seen <+: addVisit seen v := by
  rw [addVisit]
  split
  · exact List.prefix_refl _
  · exact List.prefix_append _ _

theorem addVisits_append (seen vs ws : List Visit) :
    addVisits seen (vs ++ ws) = addVisits (addVisits seen vs) ws := List.foldl_append

theorem prefix_addVisits (seen vs : List Visit) : seen <+: addVisits seen vs := by
  induction vs generalizing seen with
  | nil => exact List.prefix_refl _
  | cons v vs ih => exact (prefix_addVisit seen v).trans (ih _)

theorem mem_routes_addVisit (seen : List Visit) (v : Visit) :
    v.route ∈ routes (addVisit seen v) := by
  rw [addVisit]
  split
  · next h => exact h
  · simp [routes]

theorem routes_addVisit_nodup {v : Visit} (h : (routes seen).Nodup) :
    (routes (addVisit seen v)).Nodup := by
  rw [addVisit]
  split
  · exact h
  · next hnew =>
      have happend : routes (seen ++ [v]) = (routes seen).concat v.route := by simp [routes]
      rw [happend]
      exact h.concat hnew

theorem mem_of_mem_addVisits {v : Visit} {vs : List Visit} (h : v ∈ addVisits seen vs) :
    v ∈ seen ∨ v ∈ vs := by
  induction vs generalizing seen with
  | nil => exact .inl h
  | cons w vs ih =>
      rcases ih h with hseen | hvs
      · rw [addVisit] at hseen
        split at hseen
        · exact .inl hseen
        · rcases List.mem_append.mp hseen with hseen | hw
          · exact .inl hseen
          · exact .inr (List.mem_cons.mpr (.inl (List.mem_singleton.mp hw)))
      · exact .inr (List.mem_cons_of_mem _ hvs)

end

/-! ## The labels of routes -/

/-- The routes that have a label: the empty one and those that were visited. -/
def labelled (seen : List Visit) : List (List String) := [] :: routes seen

/-- The label of a route. -/
def labelIn (seen : List Visit) (route : List String) : String :=
  labelOf ((labelled seen).idxOf route)

theorem labelIn_nil (seen : List Visit) : labelIn seen [] = rootLabel := by
  rw [labelIn, labelled, List.idxOf_cons_self]
  rfl

/-- **Different routes have different labels.** -/
theorem labelIn_inj {seen : List Visit} {route route' : List String}
    (hroute : route ∈ labelled seen) (h : labelIn seen route = labelIn seen route') :
    route = route' :=
  (List.idxOf_inj hroute).mp (labelOf_inj h)

theorem labelled_mono {seen seen' : List Visit} (h : seen <+: seen') :
    labelled seen <+: labelled seen' :=
  List.cons_prefix_cons.mpr ⟨rfl, h.map Visit.route⟩

/-- A route keeps its label when further visits are made. -/
theorem labelIn_mono {seen seen' : List Visit} (h : seen <+: seen') {route : List String}
    (hroute : route ∈ labelled seen) : labelIn seen' route = labelIn seen route := by
  obtain ⟨more, hmore⟩ := labelled_mono h
  rw [labelIn, labelIn, ← hmore, List.idxOf_append_of_mem hroute]

/-- The next route to be visited gets the next label. -/
theorem labelIn_concat {seen : List Visit} {v : Visit} (h : v.route ∉ routes seen) :
    labelIn (seen ++ [v]) v.route = labelOf (seen.length + 1) := by
  have hne : v.route ≠ [] := by simp [Visit.route]
  have hnew : v.route ∉ labelled seen := by simp [labelled, hne, h]
  have happend : labelled (seen ++ [v]) = labelled seen ++ [v.route] := by
    simp [labelled, routes]
  rw [labelIn, happend, List.idxOf_append_of_notMem hnew, List.idxOf_cons_self]
  simp [labelled, routes]

/-- The `i`-th route visited has the label with the number `i`. -/
theorem labelIn_route {seen : List Visit} (hnodup : (routes seen).Nodup) {i : Nat} {v : Visit}
    (h : seen[i]? = some v) : labelIn seen v.route = labelOf (i + 1) := by
  have hi : i < (routes seen).length := by
    simpa [routes] using (List.getElem?_eq_some_iff.mp h).1
  have hroute : (routes seen)[i] = v.route := by
    have hsome : (routes seen)[i]? = some v.route := by simp [routes, h]
    exact (List.getElem?_eq_some_iff.mp hsome).2
  have hne : v.route ≠ [] := by simp [Visit.route]
  have hindex : (routes seen).idxOf v.route = i := by
    rw [← hroute]
    exact hnodup.idxOf_getElem i hi
  rw [labelIn, labelled, List.idxOf_cons_ne _ hne.symm, hindex]

end FilterQuery.Sql
