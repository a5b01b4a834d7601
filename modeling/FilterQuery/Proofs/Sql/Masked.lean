import FilterQuery.Proofs.Sql.Lexed
import FilterQuery.Proofs.Sql.Names
import FilterQuery.Proofs.Target.Masked
import FilterQuery.Proofs.Target.Watched

/-!
# Literals and the text of a statement

The text of a statement does not depend on the literals of the query. Putting one literal in the
place of all others commutes with everything that happens to a query on its way to a statement:
with the operations of the target (`masking_sqlTarget`), with putting the statement together
(`Scope.select_mask`) and with cutting it into pieces (`Select.pieces_mask`). Of a piece with a
parameter only the number is written. The main result is `agree_toSql_of_mask_eq`.
-/

set_option autoImplicit false

namespace FilterQuery.Sql

variable (l : Literal)

/-! ## Masks -/

/-- The expression, with `l` in the place of every parameter. -/
def Expr.mask : Expr → Expr
  | .column c => .column c
  | .param _ => .param l
  | .aggregate f e => .aggregate f e.mask
  | .aggregateAll f => .aggregateAll f

/-- The predicate, with `l` in the place of every parameter. -/
def Predicate.mask : Predicate → Predicate
  | .always => .always
  | .compare o a b => .compare o (a.mask l) (b.mask l)
  | .isNull e => .isNull (e.mask l)
  | .isNotNull e => .isNotNull (e.mask l)
  | .between e a b => .between (e.mask l) (a.mask l) (b.mask l)
  | .isIn e vs => .isIn (e.mask l) (vs.map (Expr.mask l))
  | .and p q => .and p.mask q.mask
  | .or p q => .or p.mask q.mask

/-- The statement, with `l` in the place of every parameter. -/
def Select.mask (s : Select) : Select :=
  { s with
    condition := s.condition.map (Predicate.mask l)
    grouping := s.grouping.map (Expr.mask l)
    having := s.having.map (Predicate.mask l) }

/-- The piece, with `l` in the place of a parameter. -/
def Piece.mask : Piece → Piece
  | .param _ => .param l
  | p => p

/-- The scope, with `l` in the place of every parameter. -/
def Scope.mask (s : Scope) : Scope :=
  { s with grouping := s.grouping.map (Expr.mask l), having := s.having.map (Predicate.mask l) }

/-! ## Pieces -/

namespace Piece

theorem write_mask (d : Dialect) (index : Nat) (ps : List Piece) :
    write d index (ps.map (mask l)) = write d index ps := by
  induction ps generalizing index with
  | nil => rfl
  | cons p ps ih => cases p <;> simp [mask, write, ih]

theorem length_params_mask (ps : List Piece) :
    (params (ps.map (mask l))).length = (params ps).length := by
  induction ps with
  | nil => rfl
  | cons p ps ih => cases p <;> simp [mask, ih]

theorem separated_mask (separator : String) (pss : List (List Piece)) :
    (separated separator pss).map (mask l) = separated separator (pss.map (List.map (mask l))) := by
  induction pss with
  | nil => rfl
  | cons ps pss ih =>
      cases pss with
      | nil => rfl
      | cons qs pss =>
          rw [List.map_cons] at ih
          simp [separated, ih, mask]

end Piece

theorem Expr.pieces_mask (e : Expr) : (e.mask l).pieces = e.pieces.map (Piece.mask l) := by
  induction e with
  | column c => rfl
  | param m => rfl
  | aggregate f e ih => simp [mask, pieces, ih, Piece.mask]
  | aggregateAll f => rfl

theorem Expr.listPieces_mask (es : List Expr) :
    listPieces (es.map (mask l)) = (listPieces es).map (Piece.mask l) := by
  rw [listPieces, listPieces, Piece.separated_mask, List.map_map, List.map_map]
  exact congrArg _ (List.map_congr_left fun e _ => e.pieces_mask l)

namespace Predicate

theorem mask_eq_always_iff (p : Predicate) : p.mask l = .always ↔ p = .always := by
  cases p <;> simp [mask]

theorem enclose_mask (p : Predicate) (around : Nat) (ps : List Piece) :
    (p.mask l).enclose around (ps.map (Piece.mask l)) =
      (p.enclose around ps).map (Piece.mask l) := by
  have hprecedence : (p.mask l).precedence = p.precedence := by cases p <;> rfl
  rw [enclose, enclose, hprecedence]
  split
  · simp [Piece.mask]
  · rfl

theorem pieces_mask (p : Predicate) : (p.mask l).pieces = p.pieces.map (Piece.mask l) := by
  induction p with
  | always => rfl
  | compare o a b => simp [mask, pieces, Expr.pieces_mask, Piece.mask]
  | isNull e => simp [mask, pieces, Expr.pieces_mask, Piece.mask]
  | isNotNull e => simp [mask, pieces, Expr.pieces_mask, Piece.mask]
  | between e a b => simp [mask, pieces, Expr.pieces_mask, Piece.mask]
  | isIn e vs => simp [mask, pieces, Expr.pieces_mask, Expr.listPieces_mask, Piece.mask]
  | and p q hp hq => simp [mask, pieces, hp, hq, enclose_mask, Piece.mask]
  | or p q hp hq => simp [mask, pieces, hp, hq, enclose_mask, Piece.mask]

end Predicate

namespace Select

theorem clausePieces_mask (word : String) (p : Option Predicate) :
    clausePieces word (p.map (Predicate.mask l)) = (clausePieces word p).map (Piece.mask l) := by
  cases p with
  | none => rfl
  | some p => simp [clausePieces, Predicate.pieces_mask, Piece.mask]

/-- What stands in the statement without a parameter is not changed by masking. -/
theorem joins_mask (joins : List Join) :
    (joins.flatMap fun j => .word " " :: j.pieces).map (Piece.mask l) =
      joins.flatMap fun j => .word " " :: j.pieces := by
  rw [List.map_flatMap]
  rfl

theorem pieces_mask (s : Select) : (s.mask l).pieces = s.pieces.map (Piece.mask l) := by
  have hlist : (s.mask l).listPieces = s.listPieces.map (Piece.mask l) := by
    by_cases h : s.grouping = [] <;>
      simp [listPieces, mask, h, Expr.listPieces_mask, Piece.mask]
  have hgrouping : (s.mask l).groupingPieces = s.groupingPieces.map (Piece.mask l) := by
    by_cases h : s.grouping = [] <;>
      simp [groupingPieces, mask, h, Expr.listPieces_mask, Piece.mask]
  rw [pieces, pieces, hlist, hgrouping]
  simp [mask, clausePieces_mask, joins_mask, Piece.mask]

end Select

/-! ## Scopes -/

namespace Scope

@[simp] theorem schema_mask (s : Scope) : (s.mask l).schema = s.schema := rfl

@[simp] theorem crossing?_mask (s : Scope) (parent name : String) :
    (s.mask l).crossing? parent name = s.crossing? parent name := rfl

theorem cross_mask (kind : JoinKind) (parent name : String) (r : Relation) (s : Scope) :
    (s.mask l).cross kind parent name r =
      ((s.cross kind parent name r).1, (s.cross kind parent name r).2.mask l) := by
  rw [cross, cross, crossing?_mask]
  cases s.crossing? parent name <;> rfl

theorem walk_mask (kind : JoinKind) (table label : String) (names : List String) (s : Scope) :
    walk kind table label names (s.mask l) =
      ((walk kind table label names s).1, (walk kind table label names s).2.mask l) := by
  induction names generalizing table label s with
  | nil => rfl
  | cons name names ih =>
      rw [walk, walk, schema_mask]
      cases s.schema.relation? table name with
      | none => rfl
      | some r => simp only [cross_mask, ih]

theorem resolve_mask (p : Path) (kind : JoinKind) (s : Scope) :
    resolve p kind (s.mask l) = ((resolve p kind s).1, (resolve p kind s).2.mask l) := by
  rw [resolve, resolve]
  cases p.field? with
  | none => rfl
  | some field =>
      simp only [schema_mask, walk_mask]
      rcases walk kind s.schema.root rootLabel p.relations s with ⟨e | ⟨table, label⟩, t⟩
      · rfl
      · simp only [schema_mask]
        cases t.schema.table? table with
        | none => rfl
        | some u => by_cases hcolumn : u.hasColumn field <;> simp [hcolumn]

/-- What is resolved holds no parameter. -/
theorem mask_of_resolve {p : Path} {kind : JoinKind} {s t : Scope} {e : Expr}
    (h : s.resolve p kind = (.ok e, t)) : e.mask l = e := by
  obtain ⟨-, c, rfl, -⟩ := resolve_names h
  rfl

theorem select_mask (s : Scope) (p : Predicate) :
    (s.mask l).select (p.mask l) = (s.select p).mask l := by
  by_cases h : p = .always <;>
    simp [select, Select.mask, mask, joins, Predicate.mask_eq_always_iff, h]

end Scope

/-! ## Lowering -/

/-- Masking the outcome and the scope on the left gives those on the right. -/
def masking : Lowering.Relation Scope Scope where
  Holds R x y := ∀ s, Target.Agree R (x.run.run s).1 (y.run.run (s.mask l)).1 ∧
    (x.run.run s).2.mask l = (y.run.run (s.mask l)).2
  pure h s := ⟨.ok h, rfl⟩
  fail {_ _ _ e} _ s := ⟨.error e, rfl⟩
  -- the second parts start in scopes that are masks of each other again
  bind {_ _ _ _ R S x y f g} hx hf s := by
    have hxy := hx s
    rw [Lowering.run_bind, Lowering.run_bind]
    generalize x.run.run s = run at hxy ⊢
    generalize y.run.run (s.mask l) = run' at hxy ⊢
    obtain ⟨out, t⟩ := run
    obtain ⟨out', t'⟩ := run'
    obtain ⟨hout, rfl⟩ := hxy
    cases hout with
    | ok hR => exact hf _ _ hR t
    | error e => exact ⟨.error e, rfl⟩

/-- An expression or a predicate made without looking at the scope. -/
theorem masking_step {α : Type} {mask : α → α} {a b : α} (h : mask a = b) :
    (masking l).Holds (fun x y => mask x = y) (.step (pure a)) (.step (pure b)) :=
  fun _ => ⟨.ok h, rfl⟩

/-- **Masking commutes with the operations of the target.** -/
theorem masking_sqlTarget : Target.Related (masking l) (fun e e' => e.mask l = e')
    (fun p p' => p.mask l = p') sqlTarget (sqlTarget.fixing l) where
  field p j := by
    intro s
    simp only [Lowering.attempt, Target.fixing, sqlTarget, ExceptT.run, StateT.run,
      Scope.resolve_mask]
    rcases h : Scope.resolve p j s with ⟨e | e, t⟩
    · exact ⟨.error _, rfl⟩
    · exact ⟨.ok (Scope.mask_of_resolve l h), rfl⟩
  literal m := masking_step l rfl
  aggregateAll f := by
    intro s
    cases f with
    | count => exact ⟨.ok rfl, rfl⟩
    | sum | avg | min | max => exact ⟨.error _, rfl⟩
  aggregate f := by
    rintro e _ rfl
    exact masking_step l rfl
  compare o := by
    rintro a _ b _ rfl rfl
    exact masking_step l rfl
  isNull := by
    rintro e _ rfl
    exact masking_step l rfl
  isNotNull := by
    rintro e _ rfl
    exact masking_step l rfl
  between := by
    rintro e _ a _ b _ rfl rfl rfl
    exact masking_step l rfl
  isIn := by
    rintro e _ vs _ rfl hvs
    exact masking_step l (congrArg _ (Target.map_eq_of_forall₂ hvs))
  both := by
    rintro p _ q _ rfl rfl
    exact masking_step l rfl
  either := by
    rintro p _ q _ rfl rfl
    exact masking_step l rfl
  always := masking_step l rfl
  groupBy := by
    intro es es' hes s
    rw [← Target.map_eq_of_forall₂ hes]
    exact ⟨.ok trivial, rfl⟩
  having := by
    rintro p _ rfl s
    exact ⟨.ok trivial, rfl⟩

/-! ## Statements -/

/-- The statement of a query has the text of the statement of the masked query, and as many
parameters; if there is none, the errors are the same. -/
theorem agree_toSql_mask (q : Query) (schema : Schema) (d : Dialect) :
    Target.Agree (fun s t => s.text = t.text ∧ s.params.length = t.params.length)
      (q.toSql schema d) ((q.mask l).toSql schema d) := by
  have hrun := (masking_sqlTarget l).apply q (.ofSchema schema)
  rw [← Target.apply_mask] at hrun
  change Target.Agree _ _ ((sqlTarget.apply (q.mask l)).run.run (.ofSchema schema)).1 ∧
    _ = ((sqlTarget.apply (q.mask l)).run.run (.ofSchema schema)).2 at hrun
  rw [Query.toSql, Query.toSql]
  generalize (sqlTarget.apply q).run.run (.ofSchema schema) = run at hrun ⊢
  generalize (sqlTarget.apply (q.mask l)).run.run (.ofSchema schema) = run' at hrun ⊢
  obtain ⟨out, scope⟩ := run
  obtain ⟨out', scope'⟩ := run'
  obtain ⟨hout, rfl⟩ := hrun
  cases hout with
  | error e => exact .error e
  | @ok lowered lowered' hlowered =>
      have hpieces : ((scope.mask l).select lowered'.condition).pieces =
          (scope.select lowered.condition).pieces.map (Piece.mask l) := by
        rw [← hlowered.condition, Scope.select_mask, Select.pieces_mask]
      refine .ok ⟨?_, ?_⟩
      · simp only [Statement.ofPieces, hpieces, Piece.write_mask]
      · simp only [Statement.ofPieces, hpieces, Piece.length_params_mask]

/-- **Literals never reach the text of a statement.** Two queries that differ in their literals only
fail with the same error, or have statements with the same text and with equally many parameters. -/
theorem agree_toSql_of_mask_eq {q r : Query} (h : q.mask l = r.mask l) (schema : Schema)
    (d : Dialect) :
    Target.Agree (fun s t => s.text = t.text ∧ s.params.length = t.params.length)
      (q.toSql schema d) (r.toSql schema d) := by
  have hmasked := agree_toSql_mask l r schema d
  rw [← h] at hmasked
  exact (agree_toSql_mask l q schema d).meet hmasked fun hs ht =>
    ⟨hs.1.trans ht.1.symm, hs.2.trans ht.2.symm⟩

/-- Teams with members. -/
def teamsSchema : Schema :=
  ⟨"members", [("members", ⟨[], [("team", ⟨"teams", "team_id", "id"⟩)]⟩),
    ("teams", ⟨["id", "name"], []⟩)]⟩

/-- The members of a team with a name, up to an age. -/
def membersQuery (name age : Literal) : Query where
  condition := .allOf [.compare (.path ⟨["team", "name"]⟩) .eq (.literal name) .left,
    .compare (.path ⟨["age"]⟩) .lt (.literal age) .inner]
  having := none
  grouping := none

/-- The second name would close the quotes around it and end the condition. -/
theorem agree_toSql_of_mask_eq_membersQuery :
    ((membersQuery (.string "x") (.integer 30)).mask (.integer 0) =
      (membersQuery (.string "x' OR 1 = 1 --") (.boolean true)).mask (.integer 0)) ∧
    ((membersQuery (.string "x") (.integer 30)).toSql teamsSchema .postgres).isOk ∧
    Target.Agree (fun s t => s.text = t.text ∧ s.params.length = t.params.length)
      ((membersQuery (.string "x") (.integer 30)).toSql teamsSchema .postgres)
      ((membersQuery (.string "x' OR 1 = 1 --") (.boolean true)).toSql teamsSchema .postgres) := by
  have hmask : (membersQuery (.string "x") (.integer 30)).mask (.integer 0) =
      (membersQuery (.string "x' OR 1 = 1 --") (.boolean true)).mask (.integer 0) := rfl
  exact ⟨hmask, by decide +kernel, agree_toSql_of_mask_eq (.integer 0) hmask teamsSchema .postgres⟩

end FilterQuery.Sql
