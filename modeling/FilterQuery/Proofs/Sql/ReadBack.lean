import FilterQuery.Proofs.Sql.Lexed
import FilterQuery.Proofs.Sql.Meaning

/-!
# Written conditions are read back

Reading the text of a predicate succeeds and gives the predicate, up to the grouping of chains of
`AND` and of `OR` (`SameChains`): the text of a chain shows no grouping, and a reader groups from
the left. Since the lexemes of the text are known (`Predicate.spells_pieces`), only the lexemes have
to be read. `Items` lists the items that a chain of lexemes has; the chain of a predicate is made by
induction on the predicate, and what stands in parentheses is read with one fuel less. The main
result is `Predicate.ofText_ofPieces`.
-/

set_option autoImplicit false

namespace FilterQuery.Sql

/-! ## Chains -/

/-- The predicates differ only in how chains of `AND` and chains of `OR` are grouped. -/
inductive SameChains : Predicate → Predicate → Prop where
  | refl (p : Predicate) : SameChains p p
  | symm {p q : Predicate} (h : SameChains p q) : SameChains q p
  | trans {p q r : Predicate} (h : SameChains p q) (h' : SameChains q r) : SameChains p r
  | and_assoc (p q r : Predicate) : SameChains (.and (.and p q) r) (.and p (.and q r))
  | or_assoc (p q r : Predicate) : SameChains (.or (.or p q) r) (.or p (.or q r))
  | and {p p' q q' : Predicate} (h : SameChains p p') (h' : SameChains q q') :
      SameChains (.and p q) (.and p' q')
  | or {p p' q q' : Predicate} (h : SameChains p p') (h' : SameChains q q') :
      SameChains (.or p q) (.or p' q')

theorem SameChains.comparisons_eq {p q : Predicate} (h : SameChains p q) :
    p.comparisons = q.comparisons := by
  induction h with
  | refl => rfl
  | symm _ ih => exact ih.symm
  | trans _ _ ih ih' => exact ih.trans ih'
  | and_assoc | or_assoc => exact List.append_assoc ..
  | and _ _ ih ih' | or _ _ ih ih' => rw [Predicate.comparisons, Predicate.comparisons, ih, ih']

/-- The grouping of chains does not change the value of a predicate. -/
theorem SameChains.value_eq {p q : Predicate} (h : SameChains p q) (v : Nat → Truth)
    (start : Nat) : p.value v start = q.value v start := by
  induction h generalizing start with
  | refl => rfl
  | symm _ ih => exact (ih start).symm
  | trans _ _ ih ih' => exact (ih start).trans (ih' start)
  | and_assoc p q r =>
      simp only [Predicate.value, Predicate.comparisons, List.length_append, Truth.and_assoc,
        Nat.add_assoc]
  | or_assoc p q r =>
      simp only [Predicate.value, Predicate.comparisons, List.length_append, Truth.or_assoc,
        Nat.add_assoc]
  | and h _ ih ih' | or h _ ih ih' =>
      rw [Predicate.value, Predicate.value, ih, ih', h.comparisons_eq]

/-- Chains of the connective can be grouped at will. -/
structure Regroups (connect : Predicate → Predicate → Predicate) : Prop where
  assoc : ∀ p q r, SameChains (connect (connect p q) r) (connect p (connect q r))
  congr : ∀ {p p' q q'}, SameChains p p' → SameChains q q' →
    SameChains (connect p q) (connect p' q')

theorem regroups_and : Regroups .and := ⟨.and_assoc, .and⟩

theorem regroups_or : Regroups .or := ⟨.or_assoc, .or⟩

section Regroups

variable {connect : Predicate → Predicate → Predicate}

theorem Regroups.foldl_congr (h : Regroups connect) {p p' : Predicate} (hp : SameChains p p')
    (qs : List Predicate) : SameChains (qs.foldl connect p) (qs.foldl connect p') := by
  induction qs generalizing p p' with
  | nil => exact hp
  | cons q qs ih => exact ih (h.congr hp (.refl q))

/-- The first predicate of a chain can be taken out. -/
theorem Regroups.foldl_connect (h : Regroups connect) (p q : Predicate) (qs : List Predicate) :
    SameChains (qs.foldl connect (connect p q)) (connect p (qs.foldl connect q)) := by
  induction qs generalizing q with
  | nil => exact .refl _
  | cons r qs ih =>
      have hregroup := h.foldl_congr (h.assoc p q r) qs
      exact hregroup.trans (ih (connect q r))

/-- Two chains make one. -/
theorem Regroups.connected_append (h : Regroups connect) {ps qs : List Predicate} (hps : ps ≠ [])
    (hqs : qs ≠ []) :
    SameChains (Reader.connected connect (ps ++ qs))
      (connect (Reader.connected connect ps) (Reader.connected connect qs)) := by
  obtain ⟨p, ps, rfl⟩ := List.exists_cons_of_ne_nil hps
  obtain ⟨q, qs, rfl⟩ := List.exists_cons_of_ne_nil hqs
  rw [List.cons_append, Reader.connected, List.foldl_append, List.foldl_cons]
  exact h.foldl_connect _ q qs

end Regroups

namespace Reader

/-! ## Items of chains -/

section Items

variable {α : Type} {separator : Lexeme} {item : List Lexeme → Option (α × List Lexeme)}
  {ok : List Lexeme → Prop} {rest ts us : List Lexeme} {as bs : List α}

/-- The lexemes are items with separators between them, and `item` reads each of them before all
lexemes for which `ok` holds. -/
inductive Items (separator : Lexeme) (item : List Lexeme → Option (α × List Lexeme))
    (ok : List Lexeme → Prop) : List Lexeme → List α → Prop where
  | single {ts : List Lexeme} {a : α} (h : ∀ rest, ok rest → item (ts ++ rest) = some (a, rest)) :
      Items separator item ok ts [a]
  | cons {ts us : List Lexeme} {a : α} {as : List α}
      (h : ∀ rest, ok rest → item (ts ++ rest) = some (a, rest))
      (hrest : Items separator item ok us as) :
      Items separator item ok (ts ++ separator :: us) (a :: as)

theorem Items.ne_nil (h : Items separator item ok ts as) : as ≠ [] := by
  cases h with
  | single _ => exact List.cons_ne_nil _ _
  | cons _ _ => exact List.cons_ne_nil _ _

theorem Items.append (h : Items separator item ok ts as) (h' : Items separator item ok us bs) :
    Items separator item ok (ts ++ separator :: us) (as ++ bs) := by
  induction h with
  | single hread => exact .cons hread h'
  | cons hread _ ih =>
      rw [List.append_assoc, List.cons_append]
      exact .cons hread ih

/-- There is at most one item more than there are lexemes. -/
theorem Items.length_le (h : Items separator item ok ts as) : as.length ≤ ts.length + 1 := by
  induction h with
  | single _ => simp
  | cons _ _ ih =>
      simp only [List.length_cons, List.length_append]
      omega

/-- Items are read until something else than a separator follows. -/
theorem Items.separated_eq (h : Items separator item ok ts as)
    (hseparator : ∀ rest, ok (separator :: rest)) (hok : ok rest)
    (hend : rest.head? ≠ some separator) {fuel : Nat} (hfuel : as.length ≤ fuel) :
    separated separator item fuel (ts ++ rest) = some (as, rest) := by
  induction h generalizing fuel with
  | single hread =>
      obtain ⟨fuel, rfl⟩ := Nat.exists_eq_succ_of_ne_zero (Nat.ne_zero_of_lt hfuel)
      rw [separated, hread rest hok]
      cases rest with
      | nil => rfl
      | cons t rest =>
          have ht : t ≠ separator := by simpa using hend
          simp [ht]
  | cons hread _ ih =>
      obtain ⟨fuel, rfl⟩ := Nat.exists_eq_succ_of_ne_zero (Nat.ne_zero_of_lt hfuel)
      have hrest := ih (Nat.le_of_succ_le_succ hfuel)
      rw [List.append_assoc, List.cons_append, separated, hread _ (hseparator _)]
      simp [hrest]

end Items

/-! ## Expressions and comparisons -/

theorem expr_lexemes (e : Expr) (rest : List Lexeme) :
    expr (e.lexemes ++ rest) = some (e, rest) := by
  induction e generalizing rest with
  | column c => rfl
  | param l => rfl
  | aggregateAll f => rfl
  | aggregate f e ih =>
      -- the argument of a function does not begin with a star
      have hstar : ∀ ts, e.lexemes ++ [.closing] ++ rest = .star :: .closing :: ts → False := by
        cases e <;> simp [Expr.lexemes]
      have hread := ih (.closing :: rest)
      show expr (.word (.function f) :: .opening :: (e.lexemes ++ [.closing] ++ rest)) = _
      rw [expr]
      · rw [List.append_assoc, List.singleton_append, hread]
      · exact hstar

theorem items_exprs {es : List Expr} (h : es ≠ []) :
    Items .comma expr (fun _ => True) (Lexeme.separated .comma (es.map Expr.lexemes)) es := by
  induction es with
  | nil => exact absurd rfl h
  | cons e es ih =>
      cases es with
      | nil => exact .single fun rest _ => expr_lexemes e rest
      | cons e' es =>
          exact .cons (fun rest _ => expr_lexemes e rest) (ih (List.cons_ne_nil e' es))

/-- What begins with an expression is a comparison. -/
theorem test_expr (group : List Lexeme → Option (Predicate × List Lexeme)) (e : Expr)
    (rest : List Lexeme) : test group (e.lexemes ++ rest) = comparison e rest := by
  rw [test]
  · rw [expr_lexemes]
  · cases e <;> simp [Expr.lexemes]
  · cases e <;> simp [Expr.lexemes]

/-- A comparison is read back, whatever comes after it. -/
theorem test_comparison (group : List Lexeme → Option (Predicate × List Lexeme)) {p : Predicate}
    (hp : 2 < p.precedence) (h : p.wellFormed = true) (rest : List Lexeme) :
    test group (p.lexemes ++ rest) = some (p, rest) := by
  cases p with
  | always => rfl
  | compare o l r =>
      rw [Predicate.lexemes, List.append_assoc, List.cons_append, test_expr, comparison,
        expr_lexemes]
      rfl
  | isNull e =>
      rw [Predicate.lexemes, List.append_assoc, test_expr]
      rfl
  | isNotNull e =>
      rw [Predicate.lexemes, List.append_assoc, test_expr]
      rfl
  | between e l u =>
      rw [Predicate.lexemes, List.append_assoc, List.cons_append, List.append_assoc,
        List.cons_append, test_expr, comparison, expr_lexemes]
      simp only [expr_lexemes, Option.map_some]
  | isIn e vs =>
      have hvs : vs ≠ [] := by simpa [Predicate.wellFormed] using h
      have hitems := items_exprs hvs
      have hfuel : vs.length ≤
          (Lexeme.separated .comma (vs.map Expr.lexemes) ++ .closing :: rest).length + 1 := by
        have hlength := hitems.length_le
        rw [List.length_append]
        omega
      have hread := hitems.separated_eq (fun _ => trivial) trivial
        (show (Lexeme.closing :: rest).head? ≠ some .comma by simp) hfuel
      rw [Predicate.lexemes, List.append_assoc, List.cons_append, List.cons_append,
        List.append_assoc, List.singleton_append, test_expr, comparison, hread]
  | and l r => exact absurd hp (by simp [Predicate.precedence])
  | or l r => exact absurd hp (by simp [Predicate.precedence])

/-! ## Conjunctions and disjunctions -/

theorem Items.chain_eq {w : Word} {connect : Predicate → Predicate → Predicate}
    {item : List Lexeme → Option (Predicate × List Lexeme)} {ok : List Lexeme → Prop}
    {ts rest : List Lexeme} {ps : List Predicate} (h : Items (.word w) item ok ts ps)
    (hseparator : ∀ rest, ok (.word w :: rest)) (hok : ok rest)
    (hend : rest.head? ≠ some (.word w)) :
    chain w connect item (ts ++ rest) = some (connected connect ps, rest) := by
  have hfuel : ps.length ≤ (ts ++ rest).length + 1 := by
    have hlength := h.length_le
    rw [List.length_append]
    omega
  rw [chain, h.separated_eq hseparator hok hend hfuel]
  rfl

section Group

variable {n : Nat} {group : List Lexeme → Option (Predicate × List Lexeme)}

/-- Predicates with fewer than `n` lexemes are read back before a closing parenthesis. -/
def ReadsGroups (n : Nat) (group : List Lexeme → Option (Predicate × List Lexeme)) : Prop :=
  ∀ p : Predicate, p.wellFormed = true → p.lexemes.length < n →
    ∃ p', SameChains p' p ∧
      ∀ rest, group (p.lexemes ++ .closing :: rest) = some (p', .closing :: rest)

/-- A comparison is a chain of `AND` with one item. -/
theorem items_comparison {p : Predicate} (hp : 2 < p.precedence) (h : p.wellFormed = true) :
    ∃ ps, Items (.word .and) (test group) (fun _ => True) (p.encloseLexemes 2 p.lexemes) ps ∧
      SameChains (connected .and ps) p := by
  rw [Predicate.encloseLexemes, if_neg (by omega)]
  exact ⟨[p], .single fun rest _ => test_comparison group hp h rest, .refl p⟩

/-- The items of a chain of `AND`: comparisons, and disjunctions in parentheses. -/
theorem ReadsGroups.conjuncts (hgroup : ReadsGroups n group) (p : Predicate)
    (h : p.wellFormed = true) (hn : (p.encloseLexemes 2 p.lexemes).length ≤ n) :
    ∃ ps, Items (.word .and) (test group) (fun _ => True) (p.encloseLexemes 2 p.lexemes) ps ∧
      SameChains (connected .and ps) p := by
  induction p with
  | and l r ihl ihr =>
      obtain ⟨hl, hr⟩ := Bool.and_eq_true_iff.mp h
      have hlexemes : (Predicate.and l r).encloseLexemes 2 (Predicate.and l r).lexemes =
          l.encloseLexemes 2 l.lexemes ++ .word .and :: r.encloseLexemes 2 r.lexemes := rfl
      rw [hlexemes, List.length_append, List.length_cons] at hn
      obtain ⟨ps, hps, hsame⟩ := ihl hl (by omega)
      obtain ⟨qs, hqs, hsame'⟩ := ihr hr (by omega)
      rw [hlexemes]
      refine ⟨ps ++ qs, hps.append hqs, ?_⟩
      exact (regroups_and.connected_append hps.ne_nil hqs.ne_nil).trans (.and hsame hsame')
  | or l r =>
      -- the parentheses make the disjunction shorter than the chain that it stands in
      have hlexemes : (Predicate.or l r).encloseLexemes 2 (Predicate.or l r).lexemes =
          .opening :: ((Predicate.or l r).lexemes ++ [.closing]) := rfl
      rw [hlexemes, List.length_cons, List.length_append] at hn
      obtain ⟨p', hsame, hread⟩ := hgroup (.or l r) h (by omega)
      rw [hlexemes]
      refine ⟨[p'], .single fun rest _ => ?_, hsame⟩
      rw [List.cons_append, List.append_assoc, List.singleton_append, test, hread]
  | always | compare | isNull | isNotNull | between | isIn =>
      exact items_comparison (by simp [Predicate.precedence]) h

/-- A chain of `AND` is a chain of `OR` with one item. -/
theorem ReadsGroups.conjunction (hgroup : ReadsGroups n group) {p : Predicate}
    (hp : 1 < p.precedence) (h : p.wellFormed = true) (hn : p.lexemes.length ≤ n) :
    ∃ ps, Items (.word .or) (chain .and .and (test group))
        (fun rest => rest.head? ≠ some (.word .and)) p.lexemes ps ∧
      SameChains (connected .or ps) p := by
  have hlexemes : p.encloseLexemes 2 p.lexemes = p.lexemes := by
    rw [Predicate.encloseLexemes, if_neg (by omega)]
  obtain ⟨ps, hps, hsame⟩ := hgroup.conjuncts p h (by rwa [hlexemes])
  rw [hlexemes] at hps
  refine ⟨[connected .and ps], .single fun rest hrest => ?_, hsame⟩
  exact hps.chain_eq (fun _ => trivial) trivial hrest

/-- The items of a chain of `OR` are chains of `AND`. -/
theorem ReadsGroups.disjuncts (hgroup : ReadsGroups n group) (p : Predicate)
    (h : p.wellFormed = true) (hn : p.lexemes.length ≤ n) :
    ∃ ps, Items (.word .or) (chain .and .and (test group))
        (fun rest => rest.head? ≠ some (.word .and)) p.lexemes ps ∧
      SameChains (connected .or ps) p := by
  induction p with
  | or l r ihl ihr =>
      obtain ⟨hl, hr⟩ := Bool.and_eq_true_iff.mp h
      have hlexemes : (Predicate.or l r).lexemes = l.lexemes ++ .word .or :: r.lexemes := by
        rw [Predicate.lexemes, Predicate.encloseLexemes_one, Predicate.encloseLexemes_one]
      rw [hlexemes, List.length_append, List.length_cons] at hn
      obtain ⟨ps, hps, hsame⟩ := ihl hl (by omega)
      obtain ⟨qs, hqs, hsame'⟩ := ihr hr (by omega)
      rw [hlexemes]
      refine ⟨ps ++ qs, hps.append hqs, ?_⟩
      exact (regroups_or.connected_append hps.ne_nil hqs.ne_nil).trans (.or hsame hsame')
  | and | always | compare | isNull | isNotNull | between | isIn =>
      exact hgroup.conjunction (by simp [Predicate.precedence]) h hn

end Group

/-- **The lexemes of a predicate are read back.** -/
theorem disjunction_lexemes (fuel : Nat) (p : Predicate) (h : p.wellFormed = true)
    (hfuel : p.lexemes.length < fuel) :
    ∃ p', SameChains p' p ∧ ∀ rest : List Lexeme, rest.head? ≠ some (.word .and) →
      rest.head? ≠ some (.word .or) → disjunction fuel (p.lexemes ++ rest) = some (p', rest) := by
  induction fuel generalizing p with
  | zero => exact absurd hfuel (Nat.not_lt_zero _)
  | succ fuel ih =>
      have hgroup : ReadsGroups fuel (disjunction fuel) := by
        intro q hq hlength
        obtain ⟨q', hsame, hread⟩ := ih q hq hlength
        exact ⟨q', hsame, fun rest => hread _ (by simp) (by simp)⟩
      obtain ⟨ps, hps, hsame⟩ := hgroup.disjuncts p h (Nat.le_of_lt_succ hfuel)
      refine ⟨connected .or ps, hsame, fun rest hand hor => ?_⟩
      rw [disjunction]
      exact hps.chain_eq (fun _ => by simp) hand hor

end Reader

/-! ## Whole texts -/

namespace Predicate

/-- **A written predicate is read back.** The whole text of a well-formed predicate with its
parameters says the predicate, up to the grouping of chains. -/
theorem ofText_ofPieces (d : Dialect) (p : Predicate) (h : p.wellFormed = true) :
    ∃ p', ofText? d (Statement.ofPieces d p.pieces).params (Statement.ofPieces d p.pieces).text =
        some p' ∧ SameChains p' p := by
  have hlexes : Lexes d 0 (Piece.params p.pieces) (Piece.write d 0 p.pieces) p.lexemes := by
    have hspells := p.spells_pieces d h 0 [] [] [] .nil .done
    simpa only [List.append_nil] using hspells
  obtain ⟨p', hsame, hread⟩ := Reader.disjunction_lexemes (p.lexemes.length + 1) p h (by omega)
  have hwhole := hread [] (by simp) (by simp)
  rw [List.append_nil] at hwhole
  refine ⟨p', ?_, hsame⟩
  have hlexemes := hlexes.lexemes_eq (Nat.lt_succ_self _)
  simp only [ofText?, Statement.ofPieces, String.length_ofList, String.toList_ofList, hlexemes,
    hwhole]

/-- A chain inside a chain, and a name that looks like the end of a name, a word and a
placeholder. -/
def samplePredicate : Predicate :=
  .and (.isNull (.column ⟨"t0", "a\" OR $1"⟩))
    (.and (.or .always (.isIn (.aggregate .max (.column ⟨"t1", "b"⟩)) [.param (.integer 1)]))
      (.between (.aggregateAll .count) (.param (.integer 2)) (.param (.boolean true))))

theorem ofText_ofPieces_samplePredicate :
    samplePredicate.wellFormed = true ∧
      ∃ p', ofText? .postgres (Statement.ofPieces .postgres samplePredicate.pieces).params
          (Statement.ofPieces .postgres samplePredicate.pieces).text = some p' ∧
        SameChains p' samplePredicate :=
  ⟨by decide, ofText_ofPieces .postgres samplePredicate (by decide)⟩

/-- A chain shows no grouping. -/
example : (Statement.ofPieces .mysql (and .always (and .always .always)).pieces).text =
      "1 = 1 AND 1 = 1 AND 1 = 1" ∧
    ofText? .mysql [] "1 = 1 AND 1 = 1 AND 1 = 1" =
      some (and (and .always .always) .always) := by
  decide +kernel

end Predicate

end FilterQuery.Sql
