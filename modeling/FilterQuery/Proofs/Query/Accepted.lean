import FilterQuery.Proofs.Parser.Sound
import FilterQuery.Proofs.Query.Lookup
import FilterQuery.Proofs.Token.Cut
import FilterQuery.Query.OfText

/-!
# Accepted texts have a meaning

The parser looks at the kinds of tokens, the meaning of a tree at their lexemes. The two agree: a
token of the scanner is `Meaningful`, its lexeme is known wherever its kind lets it stand, and so
every lookup in a tree of the parser succeeds. Main result: a text is a query or is rejected with
a report, and its tree never lacks a meaning (`ofText_ne_build`).
-/

set_option autoImplicit false

namespace FilterQuery

/-! ## Lexemes are known -/

theorem JoinKind.ofKeyword?_congr {s t : String} (h : Text.sameWord s t = true) :
    ofKeyword? t = ofKeyword? s := by
  simp only [ofKeyword?, Text.sameWord_congr h]

theorem Aggregate.ofName?_congr {s t : String} (h : Text.sameWord s t = true) :
    ofName? t = ofName? s := by
  simp only [ofName?, Text.sameWord_congr h]

/-- The lookups that the kind of a token lets it take part in know its lexeme. -/
structure Token.Meaningful (t : Token) : Prop where
  join : t.kind = .left ∨ t.kind = .right → ∃ j, JoinKind.ofKeyword? t.lexeme = some j
  operator : t.kind.isComparison → ∃ o, Operator.ofSymbol? t.lexeme = some o ∧ o.isBinary
  aggregate : t.kind.isAggregate → ∃ f, Aggregate.ofName? t.lexeme = some f ∧
    (f = .count ↔ t.kind = .count)
  number : t.kind = .number → ∃ l, Tree.number t = .ok l

theorem Tree.exists_number_of_inRange {t : Token} (h : InRange t.lexeme) :
    ∃ l, number t = .ok l := by
  rw [number]
  rw [InRange] at h
  split at h
  · next hpoint =>
      obtain ⟨x, hx, -⟩ := h
      rw [if_pos hpoint, hx]
      exact ⟨_, rfl⟩
  · next hpoint =>
      obtain ⟨n, hn⟩ := h
      rw [if_neg hpoint, hn]
      exact ⟨_, rfl⟩

/-! Every kind that is looked up has its spelling among those that are known. -/

namespace Kind

theorem exists_keyword_eq_label {k : Kind} (h : k = .left ∨ k = .right) :
    ∃ j : JoinKind, j.keyword = k.label := by
  rcases h with rfl | rfl
  · exact ⟨.left, rfl⟩
  · exact ⟨.right, rfl⟩

theorem exists_symbol_eq_label {k : Kind} (h : k.isComparison = true) :
    ∃ o : Operator, o.symbol = k.label ∧ o.isBinary := by
  match k, h with
  | .equal, _ => exact ⟨.eq, rfl, rfl⟩
  | .notEqual, _ => exact ⟨.ne, rfl, rfl⟩
  | .less, _ => exact ⟨.lt, rfl, rfl⟩
  | .lessOrEqual, _ => exact ⟨.lte, rfl, rfl⟩
  | .greater, _ => exact ⟨.gt, rfl, rfl⟩
  | .greaterOrEqual, _ => exact ⟨.gte, rfl, rfl⟩

theorem exists_name_eq_label {k : Kind} (h : k.isAggregate = true) :
    ∃ f : Aggregate, f.name = k.label ∧ (f = .count ↔ k = .count) := by
  match k, h with
  | .count, _ => exact ⟨.count, rfl, by decide⟩
  | .sum, _ => exact ⟨.sum, rfl, by decide⟩
  | .avg, _ => exact ⟨.avg, rfl, by decide⟩
  | .min, _ => exact ⟨.min, rfl, by decide⟩
  | .max, _ => exact ⟨.max, rfl, by decide⟩

theorem isKeyword_of_isAggregate {k : Kind} (h : k.isAggregate = true) : k.isKeyword = true := by
  cases k <;> first | rfl | cases h

end Kind

/-- A lexeme of its kind is meaningful, if it is in range where it is a number. -/
theorem Token.meaningful_of_isLexeme {t : Token} (h : Scan.IsLexeme t.kind t.lexeme.toList)
    (hnumber : t.kind = .number → Tree.InRange t.lexeme) : t.Meaningful := by
  have hword : t.kind.isKeyword = true → Text.sameWord t.kind.label t.lexeme = true := by
    intro hk
    simpa using h.sameWord hk
  -- each lookup knows the label of the kind, and it takes the lexeme for the label
  constructor
  · intro hk
    obtain ⟨j, hj⟩ := Kind.exists_keyword_eq_label hk
    have hsame := hword (by rcases hk with hk | hk <;> rw [hk] <;> rfl)
    rw [← hj] at hsame
    exact ⟨j, (JoinKind.ofKeyword?_congr hsame).trans (JoinKind.ofKeyword?_keyword j)⟩
  · intro hk
    obtain ⟨o, ho, hbinary⟩ := Kind.exists_symbol_eq_label hk
    have hlabel : t.lexeme = t.kind.label := by simpa using h.eq_label hk
    rw [hlabel, ← ho]
    exact ⟨o, Operator.ofSymbol?_symbol o, hbinary⟩
  · intro hk
    obtain ⟨f, hf, hcount⟩ := Kind.exists_name_eq_label hk
    have hsame := hword (Kind.isKeyword_of_isAggregate hk)
    rw [← hf] at hsame
    exact ⟨f, (Aggregate.ofName?_congr hsame).trans (Aggregate.ofName?_name f), hcount⟩
  · exact fun hk => Tree.exists_number_of_inRange (hnumber hk)

/-! ## Every lookup succeeds -/

namespace Tree

/-- The kept tokens among the slots are meaningful. -/
def AllMeaningful (slots : List Slot) : Prop := ∀ t, .kept t ∈ slots → t.Meaningful

/-- All lookups succeed. -/
def AllSucceed (ls : List Lookup) : Prop := ∀ l ∈ ls, l.error? = none

theorem AllMeaningful.mono {slots slots' : List Slot} (h : AllMeaningful slots)
    (hsub : ∀ slot ∈ slots', slot ∈ slots) : AllMeaningful slots' :=
  fun t ht => h t (hsub _ ht)

theorem AllSucceed.nil : AllSucceed [] := List.forall_mem_nil _

theorem AllSucceed.append {ls ls' : List Lookup} (h : AllSucceed ls) (h' : AllSucceed ls') :
    AllSucceed (ls ++ ls') := List.forall_mem_append.mpr ⟨h, h'⟩

theorem AllSucceed.single {l : Lookup} (h : l.error? = none) : AllSucceed [l] := by
  simpa [AllSucceed] using h

theorem AllSucceed.flatMap {α : Type} {lookups : α → List Lookup} {as : List α}
    (h : ∀ a ∈ as, AllSucceed (lookups a)) : AllSucceed (as.flatMap lookups) := by
  intro l hl
  obtain ⟨a, ha, hl⟩ := List.mem_flatMap.mp hl
  exact h a ha l hl

theorem Call.allSucceed {c : Call} (h : c.Grammatical) (hm : AllMeaningful c.written) :
    AllSucceed [.call c] := by
  obtain ⟨hfunction, hargument⟩ := h
  obtain ⟨f, hf, hcount⟩ := (hm c.function List.mem_cons_self).aggregate hfunction
  refine .single ?_
  rw [Lookup.error?, Tree.call, hf]
  cases harg : c.argument with
  | some p => rfl
  | none =>
      rw [harg] at hargument
      show errorOf (if f = .count then _ else _) = none
      rw [if_pos (hcount.mpr hargument)]
      rfl

theorem Selectable.allSucceed {v : Selectable} (h : v.Grammatical)
    (hm : AllMeaningful v.written) : AllSucceed v.lookups := by
  cases v with
  | path p => exact .nil
  | call c => exact Call.allSucceed h hm

theorem Value.allSucceed {v : Value} (h : v.Grammatical) (hm : AllMeaningful v.written) :
    AllSucceed v.lookups := by
  cases v with
  | path p => exact .nil
  | call c => exact Call.allSucceed h hm
  | string t => exact .nil
  | number t =>
      obtain ⟨l, hl⟩ := (hm t List.mem_cons_self).number h
      refine .single ?_
      rw [Lookup.error?, hl]
      rfl

theorem Test.allSucceed {test : Test} (h : test.Grammatical) (hm : AllMeaningful test.written) :
    AllSucceed test.lookups := by
  cases test with
  | compare t v =>
      -- the words of the other tests are operators too, but not binary ones
      obtain ⟨o, ho, hbinary⟩ := (hm t List.mem_cons_self).operator h.1
      have hoperator : AllSucceed [.operator t] := by
        refine .single ?_
        rw [Lookup.error?, Tree.operator, ho, Option.filter_some_pos hbinary]
        rfl
      exact hoperator.append
        (Value.allSucceed h.2 (hm.mono fun slot hslot => List.mem_cons_of_mem _ hslot))
  | isIn vs =>
      refine .flatMap fun v hv => Value.allSucceed (h.2 v hv) (hm.mono fun slot hslot => ?_)
      have hjoined := mem_joined (k := .comma) (List.mem_map_of_mem hv) hslot
      exact List.mem_cons_of_mem _ (List.mem_cons_of_mem _ (List.mem_append_left _ hjoined))
  | between low high =>
      refine (Value.allSucceed h.1 (hm.mono fun slot hslot => ?_)).append
        (Value.allSucceed h.2 (hm.mono fun slot hslot => ?_))
      · exact List.mem_cons_of_mem _ (List.mem_append_left _ hslot)
      · exact List.mem_cons_of_mem _ (List.mem_append_right _ (List.mem_cons_of_mem _ hslot))
  | null => exact .nil
  | notNull => exact .nil

theorem Comparison.allSucceed {c : Comparison} (h : c.Grammatical)
    (hm : AllMeaningful c.written) : AllSucceed c.lookups := by
  obtain ⟨hjoin, hleft, htest⟩ := h
  have hmright : AllMeaningful (c.left.written ++ c.test.written) :=
    hm.mono fun slot hslot => List.mem_append_right _ hslot
  refine .append ?_ (.append ?_ ?_)
  · cases hj : c.join with
    | none => exact .nil
    | some t =>
        have ht : .kept t ∈ c.written := by
          rw [Comparison.written, hj]
          exact List.mem_cons_self
        obtain ⟨j, hj⟩ := (hm t ht).join (hjoin t hj)
        refine .single ?_
        rw [Lookup.error?, joinKind, hj]
        rfl
  · refine Selectable.allSucceed hleft (hmright.mono fun slot hslot => ?_)
    exact List.mem_append_left _ hslot
  · refine Test.allSucceed htest (hmright.mono fun slot hslot => ?_)
    exact List.mem_append_right _ hslot

theorem Disjunction.allSucceed {d : Disjunction}
    (h : ∀ c ∈ d, ∀ p ∈ c, AllMeaningful p.written → AllSucceed p.lookups)
    (hm : AllMeaningful (Disjunction.written d)) : AllSucceed (Disjunction.lookups d) := by
  refine .flatMap fun p hp => ?_
  obtain ⟨c, hc, hp⟩ := List.mem_flatten.mp hp
  refine h c hc p hp (hm.mono fun slot hslot => ?_)
  exact mem_joined (List.mem_map_of_mem hc) (mem_joined (List.mem_map_of_mem hp) hslot)

theorem Primary.allSucceed {p : Primary} (h : p.Grammatical) (hm : AllMeaningful p.written) :
    AllSucceed p.lookups := by
  induction h with
  | comparison hc =>
      rw [Primary.lookups_comparison]
      rw [Primary.written_comparison] at hm
      exact Comparison.allSucceed hc hm
  | group _ _ _ ih =>
      rw [Primary.lookups_group]
      rw [Primary.written_group] at hm
      refine Disjunction.allSucceed ih (hm.mono fun slot hslot => ?_)
      exact List.mem_cons_of_mem _ (List.mem_append_left _ hslot)

/-- Every lookup in a grammatical tree with meaningful tokens succeeds. -/
theorem Root.allSucceed {r : Root} (h : r.Grammatical) (hm : AllMeaningful r.written) :
    AllSucceed r.lookups := by
  have hcondition : ∀ d : Disjunction, Disjunction.Grammatical d →
      AllMeaningful (Disjunction.written d) → AllSucceed (Disjunction.lookups d) :=
    fun d hd => Disjunction.allSucceed fun c hc p hp => Primary.allSucceed (hd.inner c hc p hp)
  have hmclauses : AllMeaningful (groupingWritten r.grouping ++ havingWritten r.having) :=
    hm.mono fun slot hslot => List.mem_append_right _ hslot
  refine .append ?_ (.append ?_ ?_)
  · exact hcondition _ h.condition (hm.mono fun slot hslot => List.mem_append_left _ hslot)
  · refine .flatMap fun d hd => ?_
    have hd : r.having = some d := Option.mem_toList.mp hd
    refine hcondition d (h.having d hd) (hmclauses.mono fun slot hslot => ?_)
    rw [hd]
    exact List.mem_append_right _ (List.mem_cons_of_mem _ hslot)
  · refine .flatMap fun items hitems => .flatMap fun item hitem => ?_
    have hitems : r.grouping = some items := Option.mem_toList.mp hitems
    have hgood := (h.grouping items hitems).2 item hitem
    refine Selectable.allSucceed hgood (hmclauses.mono fun slot hslot => ?_)
    rw [hitems]
    have hjoined := mem_joined (k := .comma) (List.mem_map_of_mem hitem) hslot
    exact List.mem_append_left _ (List.mem_cons_of_mem _ (List.mem_cons_of_mem _ hjoined))

/-- The kept tokens of a text without complaints are meaningful. -/
theorem allMeaningful_parse {s : String} (h : (parse (Scan.tokens s)).2.isEmpty) :
    AllMeaningful (parse (Scan.tokens s)).1.written := by
  intro t ht
  obtain ⟨hmem, hkind⟩ := mem_of_kept_mem h ht
  obtain ⟨-, -, -, hgood⟩ := reads_of_isEmpty h
  exact Token.meaningful_of_isLexeme (Scan.isLexeme_of_mem_tokens hmem hkind) (hgood.inRange _ ht)

/-- A tree whose lookups all succeed has a meaning. -/
theorem exists_ofTree_of_allSucceed {r : Root} (h : AllSucceed r.lookups) :
    ∃ q, Query.ofTree r = .ok q :=
  (checks_ofTree r).exists_ok_iff.mpr h

theorem exists_ofTree_parse {s : String} (h : (parse (Scan.tokens s)).2.isEmpty) :
    ∃ q, Query.ofTree (parse (Scan.tokens s)).1 = .ok q := by
  obtain ⟨-, -, -, hgood⟩ := reads_of_isEmpty h
  exact exists_ofTree_of_allSucceed (Root.allSucceed hgood.grammatical (allMeaningful_parse h))

end Tree

/-! ## Texts -/

theorem Report.isEmpty_of_merge {a b : Report} (h : (a.merge b).isEmpty) : b.isEmpty := by
  -- merging only changes the order
  have hperm := (a.problems ++ b.problems).mergeSort_perm fun p q => p.offset ≤ q.offset
  rw [show List.mergeSort _ _ = [] from List.isEmpty_iff.mp h] at hperm
  have hnil : a.problems ++ b.problems = [] := hperm.nil_eq.symm
  exact List.isEmpty_iff.mpr (List.append_eq_nil_iff.mp hnil).2

/-- **Accepted texts have a meaning.** A text is a query or is rejected. If the parser reports
nothing about its tokens, all kept tokens are meaningful and the tree is that of a query. -/
theorem Query.ofText_ne_build (s : String) :
    ((∃ q, Query.ofText s = .ok q) ∨ ∃ r, Query.ofText s = .error (.rejected r)) ∧
      ((Tree.parse (Scan.tokens s)).2.isEmpty →
        (∀ t, .kept t ∈ (Tree.parse (Scan.tokens s)).1.written → t.Meaningful) ∧
          ∃ q, Query.ofTree (Tree.parse (Scan.tokens s)).1 = .ok q) := by
  refine ⟨?_, fun h => ⟨Tree.allMeaningful_parse h, Tree.exists_ofTree_parse h⟩⟩
  rw [Query.ofText]
  by_cases hblank : Text.isBlankText s = true
  · rw [if_pos hblank]
    exact .inl ⟨_, rfl⟩
  rw [if_neg hblank]
  by_cases hempty : (Query.problems s).isEmpty = true
  · rw [if_pos hempty]
    obtain ⟨q, hq⟩ := Tree.exists_ofTree_parse (Report.isEmpty_of_merge hempty)
    rw [hq]
    exact .inl ⟨q, rfl⟩
  · rw [if_neg hempty]
    exact .inr ⟨_, rfl⟩

/-- A text with a word, a number and an operator of every sort that is looked up. -/
def sampleText : String := "Left a.b >= 2.5 AND rIGHT max(c) BETWEEN 1 AND count(*) OR (d != 'x')"

theorem Query.ofText_ne_build_sampleText :
    (Tree.parse (Scan.tokens sampleText)).2.isEmpty ∧
      ∃ q, Query.ofTree (Tree.parse (Scan.tokens sampleText)).1 = .ok q := by
  have h : (Tree.parse (Scan.tokens sampleText)).2.isEmpty := by decide +kernel
  exact ⟨h, ((Query.ofText_ne_build sampleText).2 h).2⟩

end FilterQuery
