import FilterQuery.Proofs.Parser.Twins
import FilterQuery.Proofs.Query.Blank
import FilterQuery.Proofs.Token.Moved
import FilterQuery.Query.ToJson

/-!
# Texts that differ in layout and letter case

Two texts that the scanner reads may have the same tokens up to their places and to the letter case
of the reserved words. Then both are queries or none is. If they are queries, these differ at most
in the letter case of words in paths that are reserved; if not, the complaints are about the same
tokens. Main result: `Query.ofText_alike`.
-/

set_option autoImplicit false

namespace FilterQuery

/-! ## Words in one letter case -/

/-- The word, in capitals if it is reserved. -/
def Kind.plainWord (w : String) : String := if (ofWord w).isKeyword then Text.upper w else w

/-- The query, with the words of its paths in capitals where they are reserved. -/
def Query.plain (q : Query) : Query := q.mapWords Kind.plainWord

namespace Token

/-- The token at the start of a text, in capitals if it is a reserved word. -/
def plain (t : Token) : Token :=
  { Position.start with
    kind := t.kind
    lexeme := if t.kind.isKeyword then Text.upper t.lexeme else t.lexeme }

/-- The tokens are the same up to their places, and up to letter case if they are reserved words. -/
structure Alike (t u : Token) : Prop where
  kind : t.kind = u.kind
  lexeme : t.lexeme = u.lexeme ∨ t.kind.isKeyword = true ∧ Text.sameWord t.lexeme u.lexeme = true

instance : DecidableRel Alike := fun t u =>
  decidable_of_iff (t.kind = u.kind ∧ (t.lexeme = u.lexeme ∨
      t.kind.isKeyword = true ∧ Text.sameWord t.lexeme u.lexeme = true))
    ⟨fun ⟨hkind, hlexeme⟩ => ⟨hkind, hlexeme⟩, fun h => ⟨h.kind, h.lexeme⟩⟩

theorem alike_of_bare_eq {t u : Token} (h : t.bare = u.bare) : t.Alike u := by
  have hkind : t.bare.kind = u.bare.kind := by rw [h]
  have hlexeme : t.bare.lexeme = u.bare.lexeme := by rw [h]
  exact ⟨hkind, .inl hlexeme⟩

theorem Alike.plain_eq {t u : Token} (h : t.Alike u) : t.plain = u.plain := by
  obtain ⟨hkind, heq | ⟨hkeyword, hsame⟩⟩ := h
  · rw [plain, plain, hkind, heq]
  · rw [plain, plain, ← hkind, if_pos hkeyword, if_pos hkeyword, Text.upper_eq_of_sameWord hsame]

theorem Alike.lexeme_eq {t u : Token} (h : t.Alike u) (hkind : t.kind = .number) :
    t.lexeme = u.lexeme := by
  rcases h.lexeme with heq | ⟨hkeyword, -⟩
  · exact heq
  · rw [hkind] at hkeyword
    cases hkeyword

theorem reworded_bare (t : Token) : t.Reworded id t.bare :=
  ⟨Text.sameWord_self _, fun _ => rfl, fun _ => rfl⟩

theorem reworded_plain {t : Token} (h : Scan.IsLexeme t.kind t.lexeme.toList) :
    t.Reworded Kind.plainWord t.plain := by
  constructor
  · show Text.sameWord t.lexeme (if t.kind.isKeyword then _ else _) = true
    split
    · exact Text.sameWord_upper _
    · exact Text.sameWord_self _
  · rintro (hkind | hkind)
    · simp [plain, hkind, Kind.isKeyword, Kind.isAggregate]
    · simp [plain, hkind, Kind.isKeyword, Kind.isAggregate]
  · intro hkind
    rw [plain, Kind.plainWord, (h.isWord hkind).2]

end Token

/-! ## Tokens side by side -/

/-- The tokens are at one index of both lists. -/
def SideBySide (ts us : List Token) (t u : Token) : Prop :=
  ∃ i : Nat, ts[i]? = some t ∧ us[i]? = some u

theorem forall₂_sideBySide {R : Token → Token → Prop} {ts us : List Token}
    (h : List.Forall₂ R ts us) : List.Forall₂ (SideBySide ts us) ts us := by
  refine List.forall₂_iff_get.mpr ⟨h.length_eq, fun i hi hi' => ⟨i, ?_, ?_⟩⟩
  · simp [hi]
  · simp [hi']

theorem SideBySide.of_forall₂ {R : Token → Token → Prop} {ts us : List Token}
    (h : List.Forall₂ R ts us) {t u : Token} (htu : SideBySide ts us t u) : R t u := by
  obtain ⟨i, ht, hu⟩ := htu
  obtain ⟨hi, rfl⟩ := List.getElem?_eq_some_iff.mp ht
  obtain ⟨hi', rfl⟩ := List.getElem?_eq_some_iff.mp hu
  exact h.get hi hi'

theorem SideBySide.bare_eq {ts us : List Token} (h : List.Forall₂ Token.Alike ts us)
    (hlexemes : ts.map Token.lexeme = us.map Token.lexeme) {t u : Token}
    (htu : SideBySide ts us t u) : t.bare = u.bare := by
  obtain ⟨i, ht, hu⟩ := id htu
  have hlexeme : (ts.map Token.lexeme)[i]? = (us.map Token.lexeme)[i]? := by rw [hlexemes]
  rw [List.getElem?_map, List.getElem?_map, ht, hu] at hlexeme
  rw [Token.bare, Token.bare, (htu.of_forall₂ h).kind, Option.some.inj hlexeme]

/-- In a list of tokens one behind the other, the places are in the order of the indices. -/
theorem offset_le_iff {ts : List Token} (h : ts.Pairwise fun t u => t.offset < u.offset) {i j : Nat}
    {t u : Token} (ht : ts[i]? = some t) (hu : ts[j]? = some u) :
    t.offset ≤ u.offset ↔ i ≤ j := by
  obtain ⟨hi, rfl⟩ := List.getElem?_eq_some_iff.mp ht
  obtain ⟨hj, rfl⟩ := List.getElem?_eq_some_iff.mp hu
  rw [List.pairwise_iff_getElem] at h
  constructor
  · intro hle
    by_contra hlt
    have := h j i hj hi (by omega)
    omega
  · intro hij
    rcases Nat.lt_or_eq_of_le hij with hlt | rfl
    · exact (h i j hi hj hlt).le
    · exact Nat.le_refl _

theorem SideBySide.offset_le_iff {ts us : List Token}
    (hts : ts.Pairwise fun t u => t.offset < u.offset)
    (hus : us.Pairwise fun t u => t.offset < u.offset) {t u t' u' : Token}
    (h : SideBySide ts us t u) (h' : SideBySide ts us t' u') :
    t.offset ≤ t'.offset ↔ u.offset ≤ u'.offset := by
  obtain ⟨i, ht, hu⟩ := h
  obtain ⟨j, ht', hu'⟩ := h'
  rw [FilterQuery.offset_le_iff hts ht ht', FilterQuery.offset_le_iff hus hu hu']

/-- The parser cannot tell the lists apart. -/
theorem pairs_sideBySide {ts us : List Token} (h : List.Forall₂ Token.Alike ts us)
    (hts : ts.Pairwise fun t u => t.offset < u.offset)
    (hus : us.Pairwise fun t u => t.offset < u.offset) {f : Token → Token}
    (hf : ∀ {t u}, SideBySide ts us t u → f t = f u) : Parser.Pairs f (SideBySide ts us) where
  image htu _ := hf htu
  kind htu := (htu.of_forall₂ h).kind
  number htu := (htu.of_forall₂ h).lexeme_eq
  place htu := htu.offset_le_iff hts hus

/-! ## Reports side by side -/

/-- Lists that are sorted by keys in the same order stay side by side. -/
theorem forall₂_mergeSort {α β : Type} {R : α → β → Prop} {le : α → α → Bool} {le' : β → β → Bool}
    (hle : ∀ {a b a' b'}, R a b → R a' b' → le a a' = le' b b') {as : List α} {bs : List β}
    (h : List.Forall₂ R as bs) : List.Forall₂ R (as.mergeSort le) (bs.mergeSort le') := by
  obtain ⟨hlength, hmem⟩ := List.forall₂_iff_zip.mp h
  -- both lists are sorted at once, as a list of pairs
  have hfst : ((as.zip bs).mergeSort fun x y => le x.1 y.1).map Prod.fst =
      ((as.zip bs).map Prod.fst).mergeSort le := List.map_mergeSort fun _ _ _ _ => rfl
  have hsnd : ((as.zip bs).mergeSort fun x y => le x.1 y.1).map Prod.snd =
      ((as.zip bs).map Prod.snd).mergeSort le' :=
    List.map_mergeSort fun x hx y hy => hle (hmem hx) (hmem hy)
  rw [List.map_fst_zip hlength.le] at hfst
  rw [List.map_snd_zip hlength.ge] at hsnd
  rw [← hfst, ← hsnd, List.forall₂_map_left_iff, List.forall₂_map_right_iff, List.forall₂_same]
  exact fun z hz => hmem ((List.mergeSort_perm _ _).subset hz)

namespace Query

/-- Without errors of the scanner, the problems of a text are the complaints of the parser. -/
theorem problems_of_errors_nil {s : String} (hs : Scan.errors s = []) :
    (problems s).problems =
      (Tree.parse (Scan.tokens s)).2.problems.mergeSort fun p q => p.offset ≤ q.offset := by
  simp only [problems, hs, Report.merge, Report.ofList, List.map_nil, List.nil_append]

theorem forall₂_problems {s s' : String} (hs : Scan.errors s = []) (hs' : Scan.errors s' = [])
    (h : List.Forall₂ (Parser.Matches (SideBySide (Scan.tokens s) (Scan.tokens s')))
      (Tree.parse (Scan.tokens s)).2.problems (Tree.parse (Scan.tokens s')).2.problems) :
    List.Forall₂ (Parser.Matches (SideBySide (Scan.tokens s) (Scan.tokens s')))
      (problems s).problems (problems s').problems := by
  rw [problems_of_errors_nil hs, problems_of_errors_nil hs']
  refine forall₂_mergeSort ?_ h
  rintro _ _ _ _ ⟨t, u, _, _, htu, rfl, rfl⟩ ⟨t', u', _, _, htu', rfl, rfl⟩
  rw [decide_eq_decide]
  exact htu.offset_le_iff (Scan.increasing_tokens s) (Scan.increasing_tokens s') htu'

/-! ## Queries side by side -/

/-- Trees that agree in what `f` makes of their tokens are built into queries that agree in what `g`
makes of their words. -/
theorem mapWords_eq_of_map_eq {f : Token → Token} {g : String → String} (hstar : g "*" = "*")
    (hf : ∀ {t : Token}, Scan.IsLexeme t.kind t.lexeme.toList → t.Reworded g (f t)) {s s' : String}
    (hblank : Text.isBlankText s = false) (hblank' : Text.isBlankText s' = false)
    (htrees : (Tree.parse (Scan.tokens s)).1.map f = (Tree.parse (Scan.tokens s')).1.map f)
    {q q' : Query} (hq : ofText s = .ok q) (hq' : ofText s' = .ok q') :
    q.mapWords g = q'.mapWords g := by
  have hbuilt : ∀ {s : String} {q : Query}, Text.isBlankText s = false → ofText s = .ok q →
      ofTree ((Tree.parse (Scan.tokens s)).1.map f) = .ok (q.mapWords g) := by
    intro s q hblank hq
    rcases parse_of_ofText hq with ⟨hblank', -⟩ | ⟨hroot, hspells, hbuilt⟩
    · cases hblank.symm.trans hblank'
    refine Tree.ofTree_map hstar hroot.grammatical (.of_spells hspells fun t ht => ?_) hbuilt
    exact hf (Scan.isLexeme_of_mem_body ht)
  have hmapped := hbuilt hblank hq
  rw [htrees, hbuilt hblank' hq'] at hmapped
  exact (Except.ok.inj hmapped).symm

/-- A text that is not blank is a query if it has no problems, and else it is rejected. -/
theorem ofText_of_problems {s : String} (hblank : Text.isBlankText s = false) :
    ((problems s).problems = [] → ∃ q, ofText s = .ok q) ∧
      ((problems s).problems ≠ [] → ofText s = .error (.rejected (problems s))) := by
  have hempty : (problems s).isEmpty = true ↔ (problems s).problems = [] := List.isEmpty_iff
  rw [ofText, if_neg (by simp [hblank])]
  constructor
  · intro hproblems
    obtain ⟨q, hq⟩ := Tree.exists_ofTree_parse (Report.isEmpty_of_merge (hempty.mpr hproblems))
    rw [if_pos (hempty.mpr hproblems), hq]
    exact ⟨q, rfl⟩
  · intro hproblems
    rw [if_neg fun h => hproblems (hempty.mp h)]

/-- A text without tokens is blank, whatever its layout. -/
theorem isBlankText_eq_of_forall₂ {R : Token → Token → Prop} {s s' : String}
    (hs : Scan.errors s = []) (hs' : Scan.errors s' = [])
    (h : List.Forall₂ R (Scan.tokens s) (Scan.tokens s')) :
    Text.isBlankText s = Text.isBlankText s' := by
  have hlength : (Scan.body s).length = (Scan.body s').length := by
    simpa [Scan.tokens_eq] using h.length_eq
  rw [Bool.eq_iff_iff, Scan.isBlankText_iff_body hs, Scan.isBlankText_iff_body hs',
    ← List.length_eq_zero_iff, hlength, List.length_eq_zero_iff]

/-- **Layout and letter case do not matter.** Texts that the scanner reads, with the same tokens up
to their places and up to letter case in reserved words, are both queries or both rejected. If they
are queries, these differ at most in the letter case of the reserved words in their paths, and not
at all if the tokens have the same lexemes. If they are rejected, the problems are at the same
tokens in the same order. -/
theorem ofText_alike {s s' : String} (hs : Scan.errors s = []) (hs' : Scan.errors s' = [])
    (h : List.Forall₂ Token.Alike (Scan.tokens s) (Scan.tokens s')) :
    (∃ q q', ofText s = .ok q ∧ ofText s' = .ok q' ∧ q.plain = q'.plain ∧
        ((Scan.tokens s).map Token.lexeme = (Scan.tokens s').map Token.lexeme →
          q = q' ∧ q.fingerprint = q'.fingerprint)) ∨
      ∃ r r', ofText s = .error (.rejected r) ∧ ofText s' = .error (.rejected r') ∧
        List.Forall₂ (Parser.Matches (SideBySide (Scan.tokens s) (Scan.tokens s')))
          r.problems r'.problems := by
  have hblanks := isBlankText_eq_of_forall₂ hs hs' h
  cases hblank : Text.isBlankText s with
  | true =>
      rw [hblank] at hblanks
      exact .inl ⟨neutral, neutral, ofText_of_isBlankText hblank,
        ofText_of_isBlankText hblanks.symm, rfl, fun _ => ⟨rfl, rfl⟩⟩
  | false =>
      rw [hblank] at hblanks
      have hblank' : Text.isBlankText s' = false := hblanks.symm
      have heof : ∃ t ∈ Scan.tokens s, t.kind = .eof := ⟨_, Scan.mem_tokens_iff.mpr (.inr rfl), rfl⟩
      have hside := forall₂_sideBySide h
      have hpairs := @pairs_sideBySide _ _ h (Scan.increasing_tokens s) (Scan.increasing_tokens s')
      obtain ⟨htrees, hcomplaints⟩ :=
        Parser.parse_twins (hpairs fun htu => (htu.of_forall₂ h).plain_eq) hside heof
      have hproblems := forall₂_problems hs hs' hcomplaints
      by_cases hnil : (problems s).problems = []
      · have hnil' : (problems s').problems = [] := by
          rwa [hnil, List.forall₂_nil_left_iff] at hproblems
        obtain ⟨q, hq⟩ := (ofText_of_problems hblank).1 hnil
        obtain ⟨q', hq'⟩ := (ofText_of_problems hblank').1 hnil'
        refine .inl ⟨q, q', hq, hq', ?_, fun hlexemes => ?_⟩
        · exact mapWords_eq_of_map_eq (by decide) Token.reworded_plain hblank hblank' htrees hq hq'
        · have hsame : q = q' := by
            have hbare := Parser.parse_twins (hpairs fun htu => htu.bare_eq h hlexemes) hside heof
            have hequal := mapWords_eq_of_map_eq rfl (fun _ => Token.reworded_bare _) hblank
              hblank' hbare.1 hq hq'
            rwa [mapWords_id, mapWords_id] at hequal
          exact ⟨hsame, congrArg fingerprint hsame⟩
      · have hnil' : (problems s').problems ≠ [] := by
          intro hnil'
          rw [hnil', List.forall₂_nil_right_iff] at hproblems
          exact hnil hproblems
        exact .inr ⟨_, _, (ofText_of_problems hblank).2 hnil, (ofText_of_problems hblank').2 hnil',
          hproblems⟩

/-- A text on one line. -/
def tightText : String := "left a.min>=1 and(b is null)"

/-- The same text with blanks and line feeds, and other letters. -/
def looseText : String := "LEFT a . Min >= 1\n\tAND ( b IS Null )"

theorem ofText_alike_looseText :
    Scan.errors tightText = [] ∧ Scan.errors looseText = [] ∧
      List.Forall₂ Token.Alike (Scan.tokens tightText) (Scan.tokens looseText) ∧
        ∃ q q', ofText tightText = .ok q ∧ ofText looseText = .ok q' ∧ q.plain = q'.plain := by
  have htight : Scan.errors tightText = [] := by decide +kernel
  have hloose : Scan.errors looseText = [] := by decide +kernel
  have halike : List.Forall₂ Token.Alike (Scan.tokens tightText) (Scan.tokens looseText) := by
    decide +kernel
  have haccepted : (ofText tightText).toOption.isSome = true := by decide +kernel
  rcases ofText_alike htight hloose halike with ⟨q, q', hq, hq', hplain, -⟩ | ⟨r, -, hr, -⟩
  · exact ⟨htight, hloose, halike, q, q', hq, hq', hplain⟩
  · rw [hr] at haccepted
    cases haccepted

end Query

end FilterQuery
