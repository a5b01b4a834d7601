import FilterQuery.Proofs.Query.JsonText

/-!
# Groups and the depth of JSON

Each pair of parentheses in a text puts four more arrays and objects around what stands inside it:
a disjunction and a conjunction, each an object with an array of its children. A comparison adds
between four and six, so the depth of the JSON of a query is known up to two from the groups of its
text (`Tree.depth_condition`). The parser takes up to `maxNesting` groups in each other, but from
thirty on the reader of JSON turns the query down (`Query.ofJsonText?_of_ofText`).
-/

set_option autoImplicit false

namespace FilterQuery

/-! ## Floats of a text -/

/-- The floats of an accepted text are finite: a number token is one in range. -/
theorem Query.finite_of_ofText {s : String} {q : Query} (h : Query.ofText s = .ok q) :
    ∀ l ∈ q.literals, l.Finite := by
  intro l hl
  rcases parse_of_ofText h with ⟨-, rfl⟩ | ⟨htree, hspells, hbuilt⟩
  · cases hl
  · have hquoted := Tree.allQuoted_of_spells hspells
    have hwrites := (Tree.root_writeAll htree.grammatical hquoted hbuilt).flip
    obtain ⟨slot, hslot, hwritten⟩ := exists_of_mem_forall₂ hwrites hl
    have hrange := htree.inRange slot (List.mem_filter.mp hslot).1
    cases slot with
    | mark k => cases hwritten
    | kept t =>
        cases hwritten with
        | string => trivial
        | integer => trivial
        | float hkind hpoint hread =>
            have hrange := hrange hkind
            rw [Tree.InRange, if_pos hpoint] at hrange
            obtain ⟨x, hx, hfinite⟩ := hrange
            rw [hread] at hx
            exact Option.some.inj hx ▸ hfinite

namespace Tree

/-! ## Comparisons -/

theorem depth_selectable {v : Selectable} {o : Operand} (h : selectable v = .ok o) :
    3 ≤ o.toJson.depth ∧ o.toJson.depth ≤ 4 := by
  have hpath : ∀ p : FilterQuery.Path, (Operand.path p).toJson.depth = 3 := fun p => by
    simp [Operand.toJson, p.depth_toJson]
  have hcall : ∀ f p, (Operand.aggregate f p).toJson.depth = 4 := fun f p => by
    simp [Operand.toJson, p.depth_toJson]
  cases v with
  | path p =>
      cases h
      rw [hpath]
      decide
  | call c =>
      rw [selectable, call] at h
      split at h
      · cases h
      split at h
      · cases h
        rw [hcall]
        decide
      split at h
      · cases h
        rw [hcall]
        decide
      · cases h

theorem depth_comparison {c : Comparison} {d : Condition} (h : comparison c = .ok d) :
    4 ≤ d.toJson.depth ∧ d.toJson.depth ≤ 6 := by
  obtain ⟨join, -, h⟩ := bind_eq_ok_iff.mp h
  obtain ⟨left, hleft, h⟩ := bind_eq_ok_iff.mp h
  have hl := depth_selectable hleft
  cases htest : c.test with
  | compare t v =>
      rw [htest, test] at h
      obtain ⟨o, -, h⟩ := bind_eq_ok_iff.mp h
      obtain ⟨right, -, ⟨⟩⟩ := bind_eq_ok_iff.mp h
      have hr := right.depth_toJson
      simp only [Condition.toJson, Json.depth_record, Json.depth_str, List.foldr_cons,
        List.foldr_nil]
      omega
  | isIn vs =>
      rw [htest, test] at h
      obtain ⟨os, -, ⟨⟩⟩ := bind_eq_ok_iff.mp h
      have hitems : Json.itemsDepth (os.map Operand.toJson) ≤ 4 :=
        Json.itemsDepth_le (List.forall_mem_map.mpr fun o _ => o.depth_toJson.2)
      simp only [Condition.toJson, Json.depth_record, Json.depth_str, Json.depth, List.foldr_cons,
        List.foldr_nil]
      omega
  | between low high =>
      rw [htest, test] at h
      obtain ⟨a, -, h⟩ := bind_eq_ok_iff.mp h
      obtain ⟨b, -, ⟨⟩⟩ := bind_eq_ok_iff.mp h
      have ha := a.depth_toJson
      have hb := b.depth_toJson
      simp only [Condition.toJson, Json.depth_record, Json.depth_str, List.foldr_cons,
        List.foldr_nil]
      omega
  | null =>
      rw [htest] at h
      cases h
      simp only [Condition.toJson, Json.depth_record, Json.depth_str, List.foldr_cons,
        List.foldr_nil]
      omega
  | notNull =>
      rw [htest] at h
      cases h
      simp only [Condition.toJson, Json.depth_record, Json.depth_str, List.foldr_cons,
        List.foldr_nil]
      omega

/-! ## Conditions -/

/-- The depths that the JSON of a term with `n` groups around its innermost part can have. -/
def DepthOf (n depth : Nat) : Prop := 4 * n + 4 ≤ depth ∧ depth ≤ 4 * n + 6

/-- A disjunction of terms with known depths. -/
theorem depth_condition_of_terms {d : Disjunction} (hd : d.Grammatical) {c : Condition}
    (h : condition d = .ok c)
    (hterms : ∀ ps ∈ d, ∀ p ∈ ps, ∀ e, primary p = .ok e → DepthOf p.nesting e.toJson.depth) :
    DepthOf (Disjunction.nesting d + 1) c.toJson.depth := by
  obtain ⟨cs, hcs, rfl⟩ := condition_eq_ok_iff.mp h
  have hconjunctions := conjunctions_eq_ok_iff.mp hcs
  constructor
  · -- every term stands four levels further in
    have hlow : ∀ ps ∈ d, ∀ p ∈ ps, 4 * p.nesting + 8 ≤ (Condition.anyOf cs).toJson.depth := by
      intro ps hps p hp
      obtain ⟨c, hc, hconjunction⟩ := exists_of_mem_forall₂ hconjunctions hps
      obtain ⟨es, hes, rfl⟩ := map_eq_ok_iff.mp hconjunction
      obtain ⟨e, he, hterm⟩ := exists_of_mem_forall₂ (primaries_eq_ok_iff.mp hes) hp
      have hdepth := (hterms ps hps p hp e hterm).1
      have hinner := (Condition.depth_child he).2
      have houter := (Condition.depth_child hc).1
      omega
    obtain ⟨ps, hps⟩ := List.exists_mem_of_ne_nil d hd.nonempty
    obtain ⟨p, hp⟩ := List.exists_mem_of_ne_nil ps (hd.terms ps hps)
    have hone := hlow ps hps p hp
    have hnesting : Disjunction.nesting d ≤ ((Condition.anyOf cs).toJson.depth - 8) / 4 := by
      refine Disjunction.nesting_le_iff.mpr fun ps hps p hp => ?_
      have hterm := hlow ps hps p hp
      omega
    omega
  · have hbound := Disjunction.nesting_le_iff.mp (Nat.le_refl (Disjunction.nesting d))
    refine (Condition.depth_node_le fun c hc => ?_).1
    obtain ⟨ps, hps, hconjunction⟩ := exists_of_mem_forall₂ hconjunctions.flip hc
    obtain ⟨es, hes, rfl⟩ := map_eq_ok_iff.mp hconjunction
    refine (Condition.depth_node_le fun e he => ?_).2
    obtain ⟨p, hp, hterm⟩ := exists_of_mem_forall₂ (primaries_eq_ok_iff.mp hes).flip he
    have hdepth := (hterms ps hps p hp e hterm).2
    have hnesting := hbound ps hps p hp
    omega

theorem depth_primary {p : Primary} (hp : p.Grammatical) {c : Condition}
    (h : primary p = .ok c) : DepthOf p.nesting c.toJson.depth := by
  induction p using Primary.rec' generalizing c with
  | comparison comparison =>
      have hdepth := depth_comparison h
      rwa [Primary.nesting_comparison]
  | group d ih =>
      have hd := Primary.grammatical_group_iff.mp hp
      rw [Primary.nesting_group]
      exact depth_condition_of_terms hd h fun ps hps p hp e he =>
        ih ps hps p hp (hd.inner ps hps p hp) he

theorem depth_condition {d : Disjunction} (hd : d.Grammatical) {c : Condition}
    (h : condition d = .ok c) : DepthOf (Disjunction.nesting d + 1) c.toJson.depth :=
  depth_condition_of_terms hd h fun ps hps p hp _ he => depth_primary (hd.inner ps hps p hp) he

end Tree

/-! ## Queries -/

namespace Query

/-- The JSON of a query nests as deep as the reader goes, or less, exactly if at most twenty-nine
groups stand in each other. -/
theorem depth_toJson_le_iff {r : Tree.Root} (hr : r.Grammatical) {q : Query}
    (h : ofTree r = .ok q) : q.toJson.depth ≤ maxJsonDepth ↔ r.nesting ≤ 29 := by
  obtain ⟨condition, having, grouping⟩ := q
  obtain ⟨hcondition, hhaving, -⟩ := Tree.ofTree_eq_ok_iff.mp h
  have hcondition : Tree.condition r.condition = .ok condition := hcondition
  have hhaving : Tree.condition? r.having = .ok having := hhaving
  obtain ⟨hlow, hhigh⟩ := Tree.depth_condition hr.condition hcondition
  have hgrouping := depth_grouping_le grouping
  have hmax : maxJsonDepth = 127 := rfl
  rw [toJson_eq, Tree.Root.nesting]
  simp only [Json.depth_record, List.foldr_cons, List.foldr_nil]
  generalize (Json.orNull groupingToJson grouping).depth = groupingDepth at hgrouping ⊢
  cases hclause : r.having with
  | none =>
      rw [hclause] at hhaving
      cases hhaving
      simp only [Json.orNull, Json.depth, Option.map_none, Option.getD_none]
      omega
  | some d =>
      rw [hclause] at hhaving
      obtain ⟨c, hc, rfl⟩ := map_eq_ok_iff.mp hhaving
      obtain ⟨hlow', hhigh'⟩ := Tree.depth_condition (hr.having d hclause) hc
      simp only [Json.orNull, Option.map_some, Option.getD_some]
      omega

/-- The tree of a blank text has no groups. -/
theorem nesting_of_isBlankText {s : String} (h : Text.isBlankText s = true) :
    (Tree.parse (Scan.tokens s)).1.nesting = 0 := by
  rw [Scan.tokens_eq, Scan.body_of_isBlankText h]
  rfl

/-- **Accepted texts with up to twenty-nine groups in each other are read back from JSON, and no
others.** The parser takes texts with up to `maxNesting` groups. -/
theorem ofJsonText?_of_ofText {s : String} {q : Query} (h : ofText s = .ok q)
    (hread : ∀ l ∈ q.literals, l.ReadsBack) :
    ((Tree.parse (Scan.tokens s)).1.nesting ≤ 29 →
        ofJsonText? q.jsonText = some q ∧
          (ofJsonText? q.jsonText).map fingerprint = some q.fingerprint) ∧
      (29 < (Tree.parse (Scan.tokens s)).1.nesting → ofJsonText? q.jsonText = none) := by
  have hdepth : q.toJson.depth ≤ maxJsonDepth ↔ (Tree.parse (Scan.tokens s)).1.nesting ≤ 29 := by
    rcases parse_of_ofText h with ⟨hblank, rfl⟩ | ⟨htree, -, hbuilt⟩
    · rw [nesting_of_isBlankText hblank]
      decide
    · exact depth_toJson_le_iff htree.grammatical hbuilt
  have hback := ofJsonText?_eq_ite (finite_of_ofText h) hread
  constructor
  · intro hnesting
    rw [if_pos (hdepth.mpr hnesting)] at hback
    exact ⟨hback, by rw [hback, Option.map_some]⟩
  · intro hnesting
    rw [hback, if_neg]
    omega

/-- A comparison with groups around it. -/
def nestedText (groups : Nat) : String :=
  String.ofList (List.replicate groups '(' ++ "a = 1".toList ++ List.replicate groups ')')

theorem ofJsonText?_of_ofText_nestedText : ∃ q, ofText (nestedText 29) = .ok q ∧
    (∀ l ∈ q.literals, l.ReadsBack) ∧ (Tree.parse (Scan.tokens (nestedText 29))).1.nesting = 29 ∧
      ofJsonText? q.jsonText = some q := by
  have hliterals : (ofText (nestedText 29)).toOption.map literals = some [.integer 1] := by
    decide +kernel
  have hnesting : (Tree.parse (Scan.tokens (nestedText 29))).1.nesting = 29 := by decide +kernel
  cases h : ofText (nestedText 29) with
  | error e =>
      rw [h] at hliterals
      cases hliterals
  | ok q =>
      rw [h] at hliterals
      have hread : ∀ l ∈ q.literals, l.ReadsBack := by
        rw [Option.some.inj hliterals]
        decide
      exact ⟨q, rfl, hread, hnesting, ((ofJsonText?_of_ofText h hread).1 hnesting.le).1⟩

/-- With one group more the text is accepted, but what is written for it cannot be read. -/
theorem not_ofJsonText?_nestedText : ∃ q, ofText (nestedText 30) = .ok q ∧
    (∀ l ∈ q.literals, l.Finite ∧ l.ReadsBack) ∧ ofJsonText? q.jsonText = none := by
  have hparts : (ofText (nestedText 30)).toOption.map (fun q => (q.literals, q.toJson.depth)) =
      some ([.integer 1], 129) := by
    decide +kernel
  cases h : ofText (nestedText 30) with
  | error e =>
      rw [h] at hparts
      cases hparts
  | ok q =>
      rw [h] at hparts
      obtain ⟨hliterals, hdepth⟩ := Prod.mk.inj (Option.some.inj hparts)
      have hfinite : ∀ l ∈ q.literals, l.Finite := by
        rw [hliterals]
        decide
      have hread : ∀ l ∈ q.literals, l.ReadsBack := by
        rw [hliterals]
        decide
      refine ⟨q, rfl, fun l hl => ⟨hfinite l hl, hread l hl⟩, ?_⟩
      rw [ofJsonText?_eq_ite hfinite hread, hdepth]
      rfl

end Query

end FilterQuery
