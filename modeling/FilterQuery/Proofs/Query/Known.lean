import FilterQuery.Proofs.Query.Accepted

/-!
# Trees with a meaning

A tree may hold any tokens, and the parts of it that are looked up are looked up by their lexemes.
`Lookup.Known` says of each of them which lexemes are known, in words and without the lookup itself.
Main result: a tree has a meaning exactly if all that it looks up is known, and otherwise the error
is that of the first lookup that is not, with the place of its token (`ofTree_ok_iff`).
-/

set_option autoImplicit false

namespace FilterQuery

/-! ## Spellings -/

/-- A kind of join is found under its keyword, in any letter case. -/
theorem JoinKind.isSome_ofKeyword?_iff {s : String} : (ofKeyword? s).isSome = true ↔
    ∃ w ∈ ["INNER", "LEFT", "RIGHT"], Text.sameWord w s = true := by
  rw [show ["INNER", "LEFT", "RIGHT"] = all.map keyword from rfl, ofKeyword?, List.find?_isSome]
  simp

/-- A function is found under its name, in any letter case. -/
theorem Aggregate.isSome_ofName?_iff {s : String} : (ofName? s).isSome = true ↔
    ∃ w ∈ ["COUNT", "SUM", "AVG", "MIN", "MAX"], Text.sameWord w s = true := by
  rw [show ["COUNT", "SUM", "AVG", "MIN", "MAX"] = all.map name from rfl, ofName?,
    List.find?_isSome]
  simp

theorem Aggregate.ofName?_eq_some_iff {s : String} {f : Aggregate} :
    ofName? s = some f ↔ Text.sameWord f.name s = true :=
  ⟨List.find?_some, fun h => (ofName?_congr h).trans (ofName?_name f)⟩

/-- The operators that stand between two operands are written without letters. -/
theorem Operator.isSome_filter_ofSymbol?_iff {s : String} :
    ((ofSymbol? s).filter isBinary).isSome = true ↔ s ∈ ["=", "!=", "<", "<=", ">", ">="] := by
  rw [show ["=", "!=", "<", "<=", ">", ">="] = (all.filter isBinary).map symbol from rfl]
  simp only [Option.isSome_filter, Option.any_eq_true, List.mem_map, List.mem_filter]
  constructor
  · rintro ⟨o, hfound, ho⟩
    have hsame := List.find?_some (p := fun o : Operator => Text.sameWord o.symbol s) hfound
    refine ⟨o, ⟨List.mem_of_find?_eq_some hfound, ho⟩, (Text.eq_of_sameWord ?_ hsame).symm⟩
    cases o with
    | eq | ne | lt | lte | gt | gte => decide
    | isIn | between | isNull | isNotNull => cases ho
  · rintro ⟨o, ⟨-, ho⟩, rfl⟩
    exact ⟨o, ofSymbol?_symbol o, ho⟩

namespace Tree

/-! ## What is known -/

namespace Lookup

/-- The lexeme that is looked up is known: a kind of join, an operator, a function, which needs an
argument unless it counts rows, or a number. Only words may be in any letter case. -/
def Known : Lookup → Prop
  | .join t => ∃ w ∈ ["INNER", "LEFT", "RIGHT"], Text.sameWord w t.lexeme = true
  | .operator t => t.lexeme ∈ ["=", "!=", "<", "<=", ">", ">="]
  | .call c =>
      (∃ w ∈ ["COUNT", "SUM", "AVG", "MIN", "MAX"], Text.sameWord w c.function.lexeme = true) ∧
        (c.argument = none → Text.sameWord "COUNT" c.function.lexeme = true)
  | .number t =>
      if '.' ∈ t.lexeme.toList then ∃ x, Text.readDecimal? t.lexeme = some x
      else ∃ n, Text.readInteger t.lexeme = .ok n

/-- The token at whose place a lookup fails. -/
def token : Lookup → Token
  | .join t => t
  | .operator t => t
  | .call c => c.function
  | .number t => t

theorem error?_call_eq_none_iff {c : Call} : (Lookup.call c).error? = none ↔ (call c).Known := by
  rw [Known, ← Aggregate.isSome_ofName?_iff, error?, Tree.call]
  cases hf : Aggregate.ofName? c.function.lexeme with
  | none => simp [errorOf]
  | some f =>
      have hcount : f = .count ↔ Text.sameWord "COUNT" c.function.lexeme = true := by
        rw [show "COUNT" = Aggregate.count.name from rfl, ← Aggregate.ofName?_eq_some_iff, hf,
          Option.some.injEq]
      cases hargument : c.argument with
      | some p => simp [errorOf]
      | none =>
          by_cases h : f = .count
          · simp [h, hcount.mp h, errorOf]
          · simp [h, mt hcount.mpr h, errorOf]

theorem error?_number_eq_none_iff {t : Token} :
    (Lookup.number t).error? = none ↔ (number t).Known := by
  rw [Known, error?, Tree.number]
  split
  · cases Text.readDecimal? t.lexeme <;> simp [errorOf]
  · cases Text.readInteger t.lexeme <;> simp [errorOf]

/-- **A lookup succeeds exactly if its lexeme is known.** -/
theorem error?_eq_none_iff {l : Lookup} : l.error? = none ↔ l.Known := by
  cases l with
  | join t =>
      rw [Known, ← JoinKind.isSome_ofKeyword?_iff, error?, joinKind]
      cases JoinKind.ofKeyword? t.lexeme <;> simp [errorOf]
  | operator t =>
      rw [Known, ← Operator.isSome_filter_ofSymbol?_iff, error?, Tree.operator]
      cases (Operator.ofSymbol? t.lexeme).filter Operator.isBinary <;> simp [errorOf]
  | call c => exact error?_call_eq_none_iff
  | number t => exact error?_number_eq_none_iff

theorem offset_of_error? {l : Lookup} {e : BuildError} (h : l.error? = some e) :
    e.offset = l.token.offset := by
  cases l with
  | join t =>
      rw [error?, joinKind] at h
      split at h <;> cases h
      rfl
  | operator t =>
      rw [error?, Tree.operator] at h
      split at h <;> cases h
      rfl
  | call c =>
      rw [error?, Tree.call] at h
      split at h
      · cases h
        rfl
      · split at h
        · cases h
        · split at h <;> cases h
          rfl
  | number t =>
      rw [error?, Tree.number] at h
      split at h <;> split at h <;> cases h <;> rfl

end Lookup

/-! ## Trees -/

/-- **A tree has a meaning exactly if all that it looks up is known.** Otherwise the first lookup
that is not known gives the error, at the place of its token. Lookups are made in the order
condition, `HAVING`, `GROUP BY`, from left to right in each, and in a comparison first that of its
join. -/
theorem ofTree_ok_iff (r : Root) :
    ((∃ q, Query.ofTree r = .ok q) ↔ ∀ l ∈ r.lookups, l.Known) ∧
    ∀ e, Query.ofTree r = .error e ↔ ∃ before l after, r.lookups = before ++ l :: after ∧
      (∀ l' ∈ before, l'.Known) ∧ ¬ l.Known ∧ l.error? = some e ∧ e.offset = l.token.offset := by
  constructor
  · rw [(checks_ofTree r).exists_ok_iff]
    exact forall₂_congr fun l _ => Lookup.error?_eq_none_iff
  · intro e
    rw [(checks_ofTree r).eq_error_iff]
    simp only [Lookup.error?_eq_none_iff]
    constructor
    · rintro ⟨before, l, after, hlookups, he, hbefore⟩
      refine ⟨before, l, after, hlookups, hbefore, ?_, he, Lookup.offset_of_error? he⟩
      rw [← Lookup.error?_eq_none_iff, he]
      nofun
    · rintro ⟨before, l, after, hlookups, hbefore, -, he, -⟩
      exact ⟨before, l, after, hlookups, he, hbefore⟩

end Tree

end FilterQuery
