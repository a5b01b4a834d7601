import FilterQuery.Proofs.Query.Literals
import FilterQuery.Proofs.Sql.Lexed
import FilterQuery.Proofs.Sql.Meaning
import FilterQuery.Proofs.Target.Kept

/-!
# Parameters of statements

The parameters of a statement are the literals of its query, in the order in which the statement
shows them: first those of the grouped items, which are also what is selected, then those of the
query from left to right (`params_toSql`). Where the query has been read from a text, grouped items
are no literals, and so the parameters are the strings and numbers of the text, one each and in
order (`writes_params_of_ofText`).
-/

set_option autoImplicit false

namespace FilterQuery.Sql

/-! ## Parameters of pieces -/

namespace Piece

theorem params_separated (separator : String) (pss : List (List Piece)) :
    params (separated separator pss) = pss.flatMap params := by
  induction pss with
  | nil => rfl
  | cons ps pss ih =>
      cases pss with
      | nil => simp [separated]
      | cons qs pss => simp [separated, params_append, ih]

end Piece

open Piece

theorem Expr.params_listPieces (es : List Expr) :
    params (listPieces es) = es.flatMap fun e => params e.pieces := by
  rw [listPieces, params_separated, List.flatMap_map]

theorem Predicate.params_enclose (p : Predicate) (around : Nat) (ps : List Piece) :
    params (p.enclose around ps) = params ps := by
  rw [enclose]
  split
  · simp [params_append]
  · rfl

theorem Join.params_pieces (j : Join) : params j.pieces = [] := rfl

theorem Select.params_clausePieces (word : String) (p : Option Predicate) :
    params (clausePieces word p) = p.toList.flatMap fun p => params p.pieces := by
  cases p <;> simp [clausePieces]

/-- Grouped items are written where they are selected and where rows are grouped. -/
theorem Select.params_pieces (s : Select) : params s.pieces =
    (s.grouping.flatMap fun e => params e.pieces) ++
      ((s.condition.toList.flatMap fun p => params p.pieces) ++
        ((s.grouping.flatMap fun e => params e.pieces) ++
          s.having.toList.flatMap fun p => params p.pieces)) := by
  have hlist : params s.listPieces = s.grouping.flatMap fun e => params e.pieces := by
    by_cases h : s.grouping = [] <;> simp [listPieces, h, Expr.params_listPieces]
  have hgrouping : params s.groupingPieces = s.grouping.flatMap fun e => params e.pieces := by
    by_cases h : s.grouping = [] <;> simp [groupingPieces, h, Expr.params_listPieces]
  have hjoins : params (s.joins.flatMap fun j => .word " " :: j.pieces) = [] := by
    induction s.joins with
    | nil => rfl
    | cons j joins ih => simp [params_append, Join.params_pieces, ih]
  simp [pieces, params_append, params_clausePieces, hlist, hgrouping, hjoins]

/-! ## Parameters of what is lowered -/

/-- Every scope may come up, in any order. -/
def anyScopes : Lowering.Course Scope where
  Sound _ := True
  Later _ _ := True
  refl _ := trivial
  trans _ _ := trivial

/-- Lists of expressions with the literals of their operands. -/
theorem flatMap_params {os : List Operand} {es : List Expr}
    (h : List.Forall₂ (fun o e => params e.pieces = o.literals) os es) :
    (es.flatMap fun e => params e.pieces) = os.flatMap Operand.literals := by
  induction h with
  | nil => rfl
  | cons h _ ih => rw [List.flatMap_cons, List.flatMap_cons, h, ih]

/-- **Lowering turns literals into parameters**, and loses and moves none. -/
theorem sqlTarget_keeps_literals :
    sqlTarget.Keeps anyScopes (fun _ o e => params e.pieces = o.literals)
      (fun _ c p => params p.pieces = c.literals) where
  lasts _ _ _ _ _ h := h
  lasts_condition _ _ _ _ _ h := h
  field p j := by
    intro s _ _ e t hrun
    obtain ⟨-, c, rfl, -⟩ := Scope.resolve_names (resolve_of_field hrun)
    exact ⟨trivial, trivial, rfl⟩
  literal l := .step fun _ _ => rfl
  aggregateAll p hp := .step fun _ _ => rfl
  aggregate f p e := .step fun s he => by simp [Expr.pieces, params_append, he, Operand.literals]
  compare l o r j a b ho := .step fun s hab => by
    simp [Predicate.pieces, params_append, hab.1, hab.2, Condition.literals]
  isIn l vs j e es := .step fun s hes => by
    simp [Predicate.pieces, params_append, hes.1, Expr.params_listPieces, flatMap_params hes.2,
      Condition.literals]
  between l a b j e low high := .step fun s h => by
    simp [Predicate.pieces, params_append, h.1.1, h.1.2, h.2, Condition.literals]
  isNull l j e := .step fun s he => by
    simp [Predicate.pieces, params_append, he, Condition.literals]
  isNotNull l j e := .step fun s he => by
    simp [Predicate.pieces, params_append, he, Condition.literals]
  always := .step fun s _ => ⟨rfl, rfl⟩
  single s c k hk := by simp [hk, Condition.literals, Condition.literalsOf]
  either cs c k l := .step fun s h => by
    simp [Predicate.pieces, params_append, Predicate.params_enclose, h.1, h.2, Condition.literals,
      Condition.literalsOf_eq_flatMap]
  both cs c k l := .step fun s h => by
    simp [Predicate.pieces, params_append, Predicate.params_enclose, h.1, h.2, Condition.literals,
      Condition.literalsOf_eq_flatMap]
  groupBy os es := fun s _ _ _ t _ => ⟨trivial, trivial, trivial⟩
  having c k := fun s _ _ _ t _ => ⟨trivial, trivial, trivial⟩

/-! ## Clauses of a statement -/

/-- The items to group by are handed to a scope without any. -/
theorem lowerGrouping_grouping {grouping : Option (List Operand)} {es : List Expr} {s t : Scope}
    (h : (sqlTarget.lowerGrouping grouping).run.run s = (.ok es, t)) (hs : s.grouping = []) :
    t.grouping = es := by
  match grouping with
  | none =>
      cases h
      exact hs
  | some [] =>
      cases h
      exact hs
  | some (o :: os) =>
      obtain ⟨items, u, -, hset⟩ := Lowering.run_bind_ok h
      cases hset
      rfl

/-- The scope ends with the items to group by and, if there is one, the condition on groups. -/
theorem apply_clauses {q : Query} {schema : Schema} {lowered : Target.Lowered Expr Predicate}
    {scope : Scope} (h : (sqlTarget.apply q).run.run (.ofSchema schema) = (.ok lowered, scope)) :
    scope.grouping = lowered.grouping ∧ scope.having = q.having.map fun _ => lowered.having := by
  obtain ⟨condition, s, hcondition, h⟩ := Lowering.run_bind_ok h
  obtain ⟨having, t, hhaving, h⟩ := Lowering.run_bind_ok h
  obtain ⟨grouping, u, hgrouping, h⟩ := Lowering.run_bind_ok h
  obtain ⟨last, v, hlast, h⟩ := Lowering.run_bind_ok h
  cases h
  -- lowering conditions only adds joins, so that the scope has no clauses when it is handed them
  have hjoined := (makes_lower q.condition _ _ _ hcondition).1
  have hkept := (lowerGrouping_extends hgrouping).2
  cases hq : q.having with
  | none =>
      rw [hq] at hhaving
      cases hhaving
      cases hlast
      exact ⟨lowerGrouping_grouping hgrouping hjoined.grouping_eq, hkept.trans hjoined.having_eq⟩
  | some c =>
      rw [hq] at hhaving
      obtain ⟨p, s', hp, hset⟩ := Lowering.run_bind_ok hhaving
      cases hset
      cases hlast
      have hjoined' := hjoined.trans (makes_lower c _ _ _ hp).1
      exact ⟨lowerGrouping_grouping hgrouping hjoined'.grouping_eq, hkept⟩

/-! ## Statements -/

/-- **The parameters of a statement are the literals of its query.** Those of the grouped items come
twice, as these are selected too. -/
theorem params_toSql {q : Query} {schema : Schema} {d : Dialect} {statement : Statement}
    (h : q.toSql schema d = .ok statement) :
    statement.params = q.groupingLiterals ++ q.literals := by
  rw [Query.toSql] at h
  split at h
  · cases h
  · next lowered scope hrun =>
      cases h
      obtain ⟨-, -, hlowered⟩ :=
        sqlTarget_keeps_literals.apply q (.ofSchema schema) trivial trivial lowered scope hrun
      obtain ⟨hgrouping, hhaving⟩ := apply_clauses hrun
      have hitems : (scope.grouping.flatMap fun e => params e.pieces) = q.groupingLiterals := by
        rw [hgrouping]
        exact flatMap_params hlowered.grouping
      have hgroups : (scope.having.toList.flatMap fun p => params p.pieces) =
          q.having.toList.flatMap Condition.literals := by
        rw [hhaving]
        cases hq : q.having with
        | none => rfl
        | some c => simpa using hlowered.having c hq
      -- a condition that always holds is left out, but there are no literals in it
      have hrows : ((if lowered.condition = .always then none
          else some lowered.condition).toList.flatMap fun p => params p.pieces) =
            q.condition.literals := by
        rw [← hlowered.condition]
        split
        · next halways =>
            rw [halways]
            rfl
        · simp
      change params (scope.select lowered.condition).pieces = _
      rw [Select.params_pieces, Scope.select, hitems, hgroups, hrows]
      rfl

/-- **Parameters follow the text.** The parameters of the statement of a text are the values of its
strings and numbers, one each and in the order of the text. -/
theorem writes_params_of_ofText {s : String} {q : Query} (h : Query.ofText s = .ok q)
    {schema : Schema} {d : Dialect} {statement : Statement}
    (hsql : q.toSql schema d = .ok statement) :
    List.Forall₂ Token.Writes (Scan.literals s) statement.params := by
  obtain ⟨hwrites, hgrouping⟩ := Query.writes_of_ofText h
  rw [params_toSql hsql, hgrouping]
  exact hwrites

/-- A text with literals of every sort in all its clauses. -/
def ordersText : String :=
  "customer.place IN ('x', 'y') OR (total BETWEEN 1 AND 2.5) GROUP BY total HAVING COUNT(*) > 10"

theorem writes_params_of_ofText_ordersText : ∃ q statement,
    Query.ofText ordersText = .ok q ∧ q.toSql sampleSchema .mysql = .ok statement ∧
      List.Forall₂ Token.Writes (Scan.literals ordersText) statement.params := by
  have hok : ((Query.ofText ordersText).toOption.bind fun q =>
      (q.toSql sampleSchema .mysql).toOption).isSome = true := by decide +kernel
  cases hq : Query.ofText ordersText with
  | error e =>
      rw [hq] at hok
      cases hok
  | ok q =>
      rw [hq] at hok
      cases hsql : q.toSql sampleSchema .mysql with
      | error e =>
          simp only [Except.toOption, Option.bind_some, hsql] at hok
          cases hok
      | ok statement => exact ⟨q, statement, rfl, hsql, writes_params_of_ofText hq hsql⟩

end FilterQuery.Sql
