import FilterQuery.Proofs.Query.Alike
import FilterQuery.Proofs.Query.Nesting
import FilterQuery.Proofs.Query.RoundTrip
import FilterQuery.Proofs.Query.Shape

/-!
# Texts that are put together

The tokens of an accepted text spell the same tree wherever the text stands, as long as what follows
it stands apart (`Query.scans_of_ofText`). So two accepted texts may be joined by `OR` or by `AND`,
and one may be put in parentheses: no token reaches over a seam, and the tree of the whole text
holds the trees of its parts. Main result: `Query.ofText_composed`.
-/

set_option autoImplicit false

namespace FilterQuery

/-! ## Tokens at other places -/

namespace Tree

open FilterQuery.Scan

/-- A tree whose tokens are lexemes of their kinds is built into a query. -/
theorem exists_ofTree_of_spells {r : Root} (hr : r.WellFormed maxNesting) {ts : List Token}
    (hts : Spells r.written ts) (hlexeme : ∀ t ∈ ts, IsLexeme t.kind t.lexeme.toList) :
    ∃ q, Query.ofTree r = .ok q := by
  refine exists_ofTree_of_allSucceed (Root.allSucceed hr.grammatical fun t ht => ?_)
  exact Token.meaningful_of_isLexeme (hlexeme t (hts.mem_of_kept ht)) (hr.inRange _ ht)

/-- A parse without complaints spells the tokens before the end mark. -/
theorem spells_parse_of_isEmpty {ts : List Token} (hts : ∀ t ∈ ts, t.kind ≠ .eof) {p : Position}
    (h : (parse (ts ++ [Token.eof p])).2.isEmpty) :
    Spells (parse (ts ++ [Token.eof p])).1.written ts := by
  obtain ⟨t, hread, hrest, -⟩ := reads_of_isEmpty h
  obtain ⟨us, hus, hspells⟩ := hread.spelled
  have htake : (ts ++ [Token.eof p]).takeWhile (·.kind ≠ .eof) = ts := by
    rw [List.takeWhile_append_of_pos (by simpa using hts)]
    simp [Token.eof]
  rw [hrest, List.append_nil] at hus
  have hus : (ts ++ [Token.eof p]).takeWhile (·.kind ≠ .eof) = us := hus
  rw [htake] at hus
  rw [← hus] at hspells
  exact hspells

/-- Tokens that differ only in their places from tokens that spell a tree spell a tree too, which is
built into the same query. -/
theorem exists_root_of_bare {r : Root} (hr : r.WellFormed maxNesting) {ts us : List Token}
    (hts : Spells r.written ts) {q : Query} (hq : Query.ofTree r = .ok q)
    (hbare : ts.map Token.bare = us.map Token.bare)
    (hlexeme : ∀ u ∈ us, IsLexeme u.kind u.lexeme.toList) {e e' : Position}
    (hincreasing : (ts ++ [Token.eof e]).Pairwise fun t u => t.offset < u.offset)
    (hincreasing' : (us ++ [Token.eof e']).Pairwise fun t u => t.offset < u.offset) :
    ∃ r' : Root, r'.WellFormed maxNesting ∧ Spells r'.written us ∧ r'.nesting = r.nesting ∧
      Query.ofTree r' = .ok q := by
  have hsame : List.Forall₂ (fun t u => t.bare = u.bare) (ts ++ [Token.eof e])
      (us ++ [Token.eof e']) := by
    refine List.rel_append ?_ (.cons rfl .nil)
    rwa [← List.forall₂_eq_eq_eq, List.forall₂_map_left_iff, List.forall₂_map_right_iff] at hbare
  have halike := hsame.imp fun _ _ => Token.alike_of_bare_eq
  have hpairs : Parser.Pairs Token.bare (SideBySide (ts ++ [Token.eof e]) (us ++ [Token.eof e'])) :=
    pairs_sideBySide halike hincreasing hincreasing' fun htu => htu.of_forall₂ hsame
  -- the parser reads the first tokens without a complaint, so it does the second ones
  obtain ⟨htrees, hproblems⟩ := Parser.parse_twins hpairs (forall₂_sideBySide halike)
    ⟨_, List.mem_append_right _ List.mem_cons_self, rfl⟩
  rw [parse_eq_of_spells hr hts rfl []] at htrees hproblems
  have hempty : (parse (us ++ [Token.eof e'])).2.isEmpty := by
    rw [Report.isEmpty, List.forall₂_nil_left_iff.mp hproblems]
    rfl
  have hkinds : ∀ u ∈ us, u.kind ≠ .eof := fun u hu => (hlexeme u hu).ne_eof
  have hspells := spells_parse_of_isEmpty hkinds hempty
  obtain ⟨-, -, -, hr'⟩ := reads_of_isEmpty hempty
  refine ⟨_, hr', hspells, ?_, ?_⟩
  · rw [← Root.nesting_map Token.bare, ← htrees, Root.nesting_map]
  · obtain ⟨q', hq'⟩ := exists_ofTree_of_spells hr' hspells hlexeme
    have hmapped := ofTree_map rfl hr.grammatical (fun t _ => Token.reworded_bare t) hq
    rw [htrees, ofTree_map rfl hr'.grammatical (fun t _ => Token.reworded_bare t) hq',
      Query.mapWords_id, Query.mapWords_id] at hmapped
    rw [Except.ok.inj hmapped] at hq'
    exact hq'

end Tree

/-! ## Accepted texts -/

namespace Query

open FilterQuery.Scan FilterQuery.Tree

theorem errors_of_ofText {s : String} {q : Query} (h : ofText s = .ok q)
    (hs : Text.isBlankText s = false) : Scan.errors s = [] := by
  by_contra herrors
  cases h.symm.trans (ofText_of_errors herrors hs)

/-- The numbers of an accepted text are in range. -/
theorem inRange_of_ofText {s : String} {q : Query} (h : ofText s = .ok q) {t : Token}
    (ht : t ∈ body s) (hkind : t.kind = .number) : InRange t.lexeme := by
  have hliteral : t ∈ Scan.literals s := by
    rw [Scan.literals_eq]
    exact List.mem_filter.mpr ⟨ht, by rw [hkind]; rfl⟩
  obtain ⟨l, hl, hwrites⟩ := exists_of_mem_forall₂ (writes_of_ofText h).1 hliteral
  have hfinite := finite_of_ofText h l hl
  rw [InRange]
  cases hwrites with
  | string hstring _ => cases hkind.symm.trans hstring
  | integer _ hpoint hread =>
      rw [if_neg hpoint]
      exact ⟨_, hread⟩
  | float _ hpoint hread =>
      rw [if_pos hpoint]
      exact ⟨_, hread, hfinite⟩

/-- **The tokens of an accepted text spell its tree wherever the text stands.** -/
theorem scans_of_ofText {s : String} {q : Query} (h : ofText s = .ok q)
    (hs : Text.isBlankText s = false) :
    Scans Apart s.toList (Builds Root.written
      (fun r => r.WellFormed maxNesting ∧ r.nesting = (parse (tokens s)).1.nesting) ofTree q) := by
  intro p rest hrest
  rcases parse_of_ofText h with ⟨hblank, -⟩ | ⟨hroot, hspells, hbuilt⟩
  · cases hs.symm.trans hblank
  obtain ⟨us, hbare, hpieces⟩ := exists_moved (pieces_eq_of_errors_nil (errors_of_ofText h hs)) p
  have halone : pieces p s.toList = us.map .token := by
    have hpieces := hpieces [] apart_nil
    rwa [List.append_nil, pieces, List.append_nil] at hpieces
  have hcut := cut_pieces p s.toList
  rw [halone] at hcut
  have hincreasing := hcut.increasing_tokens
  rw [filterMap_token?_map] at hincreasing
  have hlexeme : ∀ u ∈ us, IsLexeme u.kind u.lexeme.toList :=
    fun u hu => hcut.isLexeme (List.mem_map_of_mem hu)
  obtain ⟨r, hr, hspells', hnesting, hbuilt'⟩ := exists_root_of_bare hroot hspells hbuilt
    hbare.symm hlexeme (increasing_tokens s) hincreasing
  refine ⟨us, hpieces rest hrest, fun u hu hkind => ?_, r, hspells', ⟨hr, hnesting⟩, hbuilt'⟩
  -- a number of the same digits is in the text itself
  have hmem : u.bare ∈ (body s).map Token.bare := hbare ▸ List.mem_map_of_mem hu
  obtain ⟨t, ht, hsame⟩ := List.mem_map.mp hmem
  obtain ⟨hkinds, heq | ⟨hkeyword, -⟩⟩ := Token.alike_of_bare_eq hsame
  · rw [← heq]
    exact inRange_of_ofText h ht (hkinds.trans hkind)
  · rw [hkinds, hkind] at hkeyword
    cases hkeyword

/-! ## Texts of a condition -/

/-- The tokens spell a disjunction with at most `n` groups in each other, which is built into the
conditions. -/
def Joins (n : Nat) (cs : List Condition) : List Token → Prop :=
  Builds Disjunction.written (fun d => Disjunction.Grammatical d ∧ Disjunction.nesting d ≤ n)
    conjunctions cs

/-- An accepted text without clauses is a condition wherever it stands. -/
theorem scans_joins_of_ofText {s : String} {cs : List Condition}
    (h : ofText s = .ok ⟨.anyOf cs, none, none⟩) (hs : Text.isBlankText s = false) :
    Scans Apart s.toList (Joins (parse (tokens s)).1.nesting cs) := by
  refine (scans_of_ofText h hs).imp ?_
  rintro ts ⟨⟨d, grouping, having⟩, hspells, ⟨hr, hnesting⟩, hbuilt⟩
  obtain ⟨hcondition, hhaving, hgrouping⟩ := ofTree_eq_ok_iff.mp hbuilt
  have hnone : grouping = none ∧ having = none := by
    constructor
    · cases grouping with
      | none => rfl
      | some items =>
          obtain ⟨os, -, hos⟩ := map_eq_ok_iff.mp hgrouping
          cases hos
    · cases having with
      | none => rfl
      | some e =>
          obtain ⟨c, -, hc⟩ := map_eq_ok_iff.mp hhaving
          cases hc
  obtain ⟨rfl, rfl⟩ := hnone
  obtain ⟨cs', hcs, heq⟩ := condition_eq_ok_iff.mp hcondition
  cases heq
  refine ⟨d, ?_, ⟨hr.grammatical.condition, ?_⟩, hcs⟩
  · simpa [Root.written, groupingWritten, havingWritten] using hspells
  · rw [← hnesting]
    exact Nat.le_max_left _ _

/-- A text whose tokens spell a condition is the query of this condition. -/
theorem ofText_of_scans {text : List Char} {cs : List Condition}
    (h : Scans Apart text (Joins maxNesting cs)) :
    ofText (String.ofList text) = .ok ⟨.anyOf cs, none, none⟩ := by
  obtain ⟨ts, hpieces, hrange, d, hspells, ⟨hd, hnesting⟩, hbuilt⟩ := h .start [] apart_nil
  rw [List.append_nil, pieces, List.append_nil] at hpieces
  have hwritten : Spells (Root.written ⟨d, none, none⟩) ts := by
    simpa [Root.written, groupingWritten, havingWritten] using hspells
  have hgood : Root.Grammatical ⟨d, none, none⟩ :=
    ⟨hd, fun _ hitems => (by cases hitems), fun _ hhaving => (by cases hhaving)⟩
  refine ofText_of_spelled ?_ ⟨⟨d, none, none⟩, ⟨hgood, ?_, ?_⟩, hwritten, ?_⟩
  · rw [String.toList_ofList, hpieces]
  · exact Nat.max_le.mpr ⟨hnesting, Nat.zero_le _⟩
  · intro slot hslot
    cases slot with
    | kept t => exact hrange t (hwritten.mem_of_kept hslot)
    | mark k => trivial
  · exact ofTree_eq_ok_iff.mpr ⟨condition_eq_ok_iff.mpr ⟨cs, hbuilt, rfl⟩, rfl, rfl⟩

/-! ## Joined conditions -/

theorem forall₂_append_singleton {α β : Type} {R : α → β → Prop} {as : List α} {bs : List β}
    {b : β} (h : List.Forall₂ R as (bs ++ [b])) :
    ∃ front a, as = front ++ [a] ∧ List.Forall₂ R front bs ∧ R a b := by
  obtain ⟨a, rest, hab, hrest, hdrop⟩ :=
    List.forall₂_cons_right_iff.mp (List.forall₂_drop_append as bs [b] h)
  cases hrest
  refine ⟨as.take bs.length, a, ?_, List.forall₂_take_append as bs [b] h, hab⟩
  rw [← hdrop, List.take_append_drop]

theorem Joins.mono {m n : Nat} {cs : List Condition} {ts : List Token} (h : Joins m cs ts)
    (hmn : m ≤ n) : Joins n cs ts := by
  obtain ⟨d, hspells, ⟨hd, hnesting⟩, hbuilt⟩ := h
  exact ⟨d, hspells, ⟨hd, hnesting.trans hmn⟩, hbuilt⟩

theorem Joins.or {n : Nat} {as bs : List Condition} {ts us vs : List Token} (h : Joins n as ts)
    (hor : Spells [.mark .or] us) (h' : Joins n bs vs) : Joins n (as ++ bs) (ts ++ (us ++ vs)) := by
  obtain ⟨d, hd, ⟨hgood, hnesting⟩, hbuilt⟩ := h
  obtain ⟨e, he, ⟨hgood', hnesting'⟩, hbuilt'⟩ := h'
  rw [Disjunction.nesting_le_iff] at hnesting hnesting'
  rw [conjunctions_eq_ok_iff] at hbuilt hbuilt'
  refine ⟨d ++ e, ?_, ⟨⟨?_, ?_, ?_⟩, ?_⟩, ?_⟩
  · rw [Disjunction.written, List.map_append, joined_append]
    · exact List.rel_append hd (List.rel_append hor he)
    · exact mt List.map_eq_nil_iff.mp hgood.nonempty
    · exact mt List.map_eq_nil_iff.mp hgood'.nonempty
  · exact List.append_ne_nil_of_left_ne_nil hgood.nonempty _
  · exact List.forall_mem_append.mpr ⟨hgood.terms, hgood'.terms⟩
  · exact List.forall_mem_append.mpr ⟨hgood.inner, hgood'.inner⟩
  · exact Disjunction.nesting_le_iff.mpr (List.forall_mem_append.mpr ⟨hnesting, hnesting'⟩)
  · exact conjunctions_eq_ok_iff.mpr (List.rel_append hbuilt hbuilt')

/-- What holds of the terms of two conditions holds of the terms of the whole. -/
theorem forall_mem_fuse {P : Conjunction → Prop} {front others : List Conjunction}
    {ps qs : Conjunction} (h : ∀ c ∈ front ++ [ps], P c) (h' : ∀ c ∈ qs :: others, P c)
    (hboth : P ps → P qs → P (ps ++ qs)) : ∀ c ∈ front ++ (ps ++ qs) :: others, P c := by
  obtain ⟨hfront, hps⟩ := List.forall_mem_append.mp h
  obtain ⟨hqs, hothers⟩ := List.forall_mem_cons.mp h'
  have hnew := hboth (hps ps List.mem_cons_self) hqs
  exact List.forall_mem_append.mpr ⟨hfront, List.forall_mem_cons.mpr ⟨hnew, hothers⟩⟩

/-- The last conjunction of the one condition and the first one of the other become one. -/
theorem Joins.and {n : Nat} {as bs : List (List Condition)} {ls fs : List Condition}
    {ts us vs : List Token} (h : Joins n ((as ++ [ls]).map .allOf) ts)
    (hand : Spells [.mark .and] us) (h' : Joins n ((fs :: bs).map .allOf) vs) :
    Joins n ((as ++ (ls ++ fs) :: bs).map .allOf) (ts ++ (us ++ vs)) := by
  obtain ⟨d, hd, ⟨hgood, hnesting⟩, hbuilt⟩ := h
  obtain ⟨e, he, ⟨hgood', hnesting'⟩, hbuilt'⟩ := h'
  rw [Disjunction.nesting_le_iff] at hnesting hnesting'
  rw [conjunctions_eq_ok_map_iff] at hbuilt hbuilt'
  obtain ⟨front, ps, rfl, hfront, hps⟩ := forall₂_append_singleton hbuilt
  obtain ⟨qs, others, hqs, hothers, rfl⟩ := List.forall₂_cons_right_iff.mp hbuilt'
  have hpsNe : ps ≠ [] := hgood.terms ps (List.mem_append_right _ List.mem_cons_self)
  have hqsNe : qs ≠ [] := hgood'.terms qs List.mem_cons_self
  have hboth : Conjunction.written (ps ++ qs) =
      Conjunction.written ps ++ .mark .and :: Conjunction.written qs := by
    rw [Conjunction.written, List.map_append, joined_append]
    · rfl
    · exact mt List.map_eq_nil_iff.mp hpsNe
    · exact mt List.map_eq_nil_iff.mp hqsNe
  refine ⟨front ++ (ps ++ qs) :: others, ?_, ⟨⟨by simp, ?_, ?_⟩, ?_⟩, ?_⟩
  · rw [Disjunction.written, List.map_append, List.map_singleton] at hd
    rw [Disjunction.written, List.map_append, List.map_cons, hboth, joined_fuse, joined_cons_slot]
    exact List.rel_append hd (List.rel_append hand he)
  · exact forall_mem_fuse hgood.terms hgood'.terms fun _ _ =>
      List.append_ne_nil_of_left_ne_nil hpsNe _
  · exact forall_mem_fuse hgood.inner hgood'.inner fun hp hq =>
      List.forall_mem_append.mpr ⟨hp, hq⟩
  · exact Disjunction.nesting_le_iff.mpr (forall_mem_fuse hnesting hnesting' fun hp hq =>
      List.forall_mem_append.mpr ⟨hp, hq⟩)
  · rw [conjunctions_eq_ok_map_iff]
    exact List.rel_append hfront (.cons (List.rel_append hps hqs) hothers)

/-- A condition in parentheses is one term. -/
theorem Joins.group {n : Nat} {cs : List Condition} {ts : List Token}
    (h : ∃ d, Spells (.mark .leftParen :: (Disjunction.written d ++ [.mark .rightParen])) ts ∧
      (Disjunction.Grammatical d ∧ Disjunction.nesting d ≤ n) ∧ conjunctions d = .ok cs) :
    Joins (n + 1) [.allOf [.anyOf cs]] ts := by
  obtain ⟨d, hspells, ⟨hgood, hnesting⟩, hbuilt⟩ := h
  have hbuilt' : conjunctions [[.group d]] = .ok ([[Condition.anyOf cs]].map .allOf) := by
    refine conjunctions_eq_ok_map_iff.mpr (.cons (.cons ?_ .nil) .nil)
    rw [primary]
    exact map_eq_ok_iff.mpr ⟨cs, hbuilt, rfl⟩
  refine ⟨[[.group d]], ?_, ⟨⟨by simp, by simp, ?_⟩, ?_⟩, hbuilt'⟩
  · simpa [Disjunction.written, Conjunction.written, Primary.written_group] using hspells
  · simpa using Primary.grammatical_group_iff.mpr hgood
  · rw [Disjunction.nesting_le_iff]
    simpa [Primary.nesting_group] using hnesting

/-! ## Texts that are put together -/

/-- Two conditions with a reserved word between blanks between them: nothing reaches over it. -/
theorem scans_seam {n : Nat} {k : Kind} (hk : k.isKeyword = true) {as bs cs : List Condition}
    {text text' : List Char} (h : Scans Apart text (Joins n as))
    (h' : Scans Apart text' (Joins n bs))
    (hjoin : ∀ {ts us vs}, Joins n as ts → Spells [.mark k] us → Joins n bs vs →
      Joins n cs (ts ++ (us ++ vs))) :
    Scans Apart (text ++ (' ' :: (k.label.toList ++ [' ']) ++ text')) (Joins n cs) := by
  have hbehind : Scans Apart (' ' :: (k.label.toList ++ [' ']) ++ text')
      fun ws => ∃ us vs, ws = us ++ vs ∧ Spells [.mark k] us ∧ Joins n bs vs :=
    (scans_between_blanks hk).append h' (fun _ _ => trivial)
      fun us vs hus hvs => ⟨us, vs, rfl, hus, hvs⟩
  refine h.append hbehind (fun rest _ => apart_cons (by decide) _) ?_
  rintro ts _ hts ⟨us, vs, rfl, hus, hvs⟩
  exact hjoin hts hus hvs

theorem scans_parens {n : Nat} {cs : List Condition} {text : List Char}
    (h : Scans Apart text (Joins n cs)) :
    Scans Apart ('(' :: (text ++ [')'])) (Joins (n + 1) [.allOf [.anyOf cs]]) := by
  have hinner : Scans Apart text (Builds Disjunction.written
      (fun d => Disjunction.Grammatical d ∧ Disjunction.nesting d ≤ n) conjunctions cs) := h
  exact hinner.parens.imp fun ts hts => Joins.group hts

theorem nesting_le_of_ofText {s : String} {q : Query} (h : ofText s = .ok q) :
    (parse (tokens s)).1.nesting ≤ maxNesting := by
  rcases parse_of_ofText h with ⟨hblank, -⟩ | ⟨hroot, -, -⟩
  · rw [nesting_of_isBlankText hblank]
    exact Nat.zero_le _
  · exact hroot.nesting_le

/-- The condition of an accepted text is a disjunction of conjunctions. -/
theorem exists_allOf_of_ofText {s : String} {cs : List Condition}
    (h : ofText s = .ok ⟨.anyOf cs, none, none⟩) (hs : Text.isBlankText s = false) :
    ∃ css : List (List Condition), cs = css.map .allOf ∧ css ≠ [] := by
  obtain ⟨css, heq, hne, -⟩ := (canonical_of_ofText hs h).1.condition
  exact ⟨css, Condition.anyOf.inj heq, hne⟩

/-- **Accepted texts without clauses may be put together.** With `OR` between them, the conjunctions
of the second text come behind those of the first; with `AND` between them, the last conjunction of
the first text and the first one of the second become one; and in parentheses a text is one term,
unless its groups nest as deep as they may already. -/
theorem ofText_composed {a b : String} {as bs : List Condition}
    (ha : ofText a = .ok ⟨.anyOf as, none, none⟩) (hb : ofText b = .ok ⟨.anyOf bs, none, none⟩)
    (hblank : Text.isBlankText a = false) (hblank' : Text.isBlankText b = false) :
    ofText (a ++ " OR " ++ b) = .ok ⟨.anyOf (as ++ bs), none, none⟩ ∧
      (∃ init ls fs rest, as = init ++ [.allOf ls] ∧ bs = .allOf fs :: rest ∧
        ofText (a ++ " AND " ++ b) =
          .ok ⟨.anyOf (init ++ .allOf (ls ++ fs) :: rest), none, none⟩) ∧
      ((Tree.parse (Scan.tokens a)).1.nesting ≤ 127 →
        ofText ("(" ++ a ++ ")") = .ok ⟨.anyOf [.allOf [.anyOf as]], none, none⟩) := by
  have hscans := scans_joins_of_ofText ha hblank
  have hwhole := hscans.imp fun ts h => h.mono (nesting_le_of_ofText ha)
  have hwhole' := (scans_joins_of_ofText hb hblank').imp fun ts h =>
    h.mono (nesting_le_of_ofText hb)
  refine ⟨?_, ?_, fun hdeep => ?_⟩
  · have htext : a ++ " OR " ++ b =
        String.ofList (a.toList ++ (' ' :: (Kind.or.label.toList ++ [' ']) ++ b.toList)) := by
      simp [← String.toList_inj, Kind.label]
    rw [htext]
    exact ofText_of_scans (scans_seam rfl hwhole hwhole' Joins.or)
  · obtain ⟨css, rfl, hne⟩ := exists_allOf_of_ofText ha hblank
    obtain ⟨css', rfl, hne'⟩ := exists_allOf_of_ofText hb hblank'
    obtain ⟨init, ls, rfl⟩ := (List.eq_nil_or_concat' css).resolve_left hne
    obtain ⟨fs, rest, rfl⟩ := List.exists_cons_of_ne_nil hne'
    refine ⟨init.map .allOf, ls, fs, rest.map .allOf, by simp, rfl, ?_⟩
    have htext : a ++ " AND " ++ b =
        String.ofList (a.toList ++ (' ' :: (Kind.and.label.toList ++ [' ']) ++ b.toList)) := by
      simp [← String.toList_inj, Kind.label]
    have hjoined := ofText_of_scans (scans_seam rfl hwhole hwhole' Joins.and)
    rw [htext]
    simpa using hjoined
  · have htext : "(" ++ a ++ ")" = String.ofList ('(' :: (a.toList ++ [')'])) := by
      simp [← String.toList_inj]
    rw [htext]
    refine ofText_of_scans ((scans_parens hscans).imp fun ts h => h.mono ?_)
    exact Nat.succ_le_succ hdeep

/-- A text that ends in a path and has `AND` in it in both roles. -/
def boundsText : String := "a BETWEEN 1 AND 2.5 AND b > 0 OR left c.by = d.group"

/-- A text that starts with a group. -/
def listText : String := "(e IS NULL OR f = 'AND') AND g IN ('OR', 3)"

/-- A query of a text that has neither clause is a disjunction and nothing else. -/
theorem exists_anyOf_of_ofText {s : String} (hs : Text.isBlankText s = false)
    (h : (ofText s).toOption.map (fun q => (q.having.isNone, q.grouping.isNone)) =
      some (true, true)) : ∃ cs, ofText s = .ok ⟨.anyOf cs, none, none⟩ := by
  cases hq : ofText s with
  | error e =>
      rw [hq] at h
      cases h
  | ok q =>
      rw [hq] at h
      obtain ⟨css, hcondition, -⟩ := (canonical_of_ofText hs hq).1.condition
      obtain ⟨condition, having, grouping⟩ := q
      obtain ⟨hhaving, hgrouping⟩ := Prod.mk.inj (Option.some.inj h)
      obtain rfl := Option.isNone_iff_eq_none.mp hhaving
      obtain rfl := Option.isNone_iff_eq_none.mp hgrouping
      cases hcondition
      exact ⟨_, rfl⟩

theorem ofText_composed_boundsText : ∃ as bs,
    ofText boundsText = .ok ⟨.anyOf as, none, none⟩ ∧
      ofText listText = .ok ⟨.anyOf bs, none, none⟩ ∧ Text.isBlankText boundsText = false ∧
      Text.isBlankText listText = false ∧ (Tree.parse (Scan.tokens boundsText)).1.nesting ≤ 127 ∧
      ofText (boundsText ++ " OR " ++ listText) = .ok ⟨.anyOf (as ++ bs), none, none⟩ ∧
      (∃ init ls fs rest, as = init ++ [.allOf ls] ∧ bs = .allOf fs :: rest ∧
        ofText (boundsText ++ " AND " ++ listText) =
          .ok ⟨.anyOf (init ++ .allOf (ls ++ fs) :: rest), none, none⟩) ∧
      ofText ("(" ++ boundsText ++ ")") = .ok ⟨.anyOf [.allOf [.anyOf as]], none, none⟩ := by
  have hblank : Text.isBlankText boundsText = false := by decide +kernel
  have hblank' : Text.isBlankText listText = false := by decide +kernel
  have hnesting : (Tree.parse (Scan.tokens boundsText)).1.nesting ≤ 127 := by decide +kernel
  obtain ⟨as, has⟩ := exists_anyOf_of_ofText hblank (by decide +kernel)
  obtain ⟨bs, hbs⟩ := exists_anyOf_of_ofText hblank' (by decide +kernel)
  obtain ⟨hor, hand, hgroup⟩ := ofText_composed has hbs hblank hblank'
  exact ⟨as, bs, has, hbs, hblank, hblank', hnesting, hor, hand, hgroup hnesting⟩

end Query

end FilterQuery
