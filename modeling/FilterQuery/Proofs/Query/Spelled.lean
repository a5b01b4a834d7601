import FilterQuery.Proofs.Parser.Complete
import FilterQuery.Proofs.Parser.Sound
import FilterQuery.Proofs.Query.Accepted

/-!
# Texts that spell a tree

A text is read in three steps: the scanner cuts it into tokens, the parser makes a tree of them,
and the tree is built into a query. `Spelled ts q` puts the last two together: the tokens spell a
well-formed tree that is built into `q`. A text with tokens is the query `q` if these spell it and
nothing is left unread (`ofText_of_spelled`), and a text is a query only if its tokens spell it or
if it is blank (`spelled_of_ofText`).
-/

set_option autoImplicit false

namespace FilterQuery

/-! ## Blank texts -/

namespace Scan

/-- A blank character is far from those that tokens start with. -/
theorem not_isBlank_of_toNat {c : Char} (h : 33 ≤ c.toNat) (h' : c.toNat ≤ 126) :
    Text.isBlank c = false := by
  simp [Text.isBlank, Text.blankRanges]
  omega

theorem toNat_of_isWordStart {c : Char} (h : isWordStart c = true) :
    65 ≤ c.toNat ∧ c.toNat ≤ 122 := by
  rw [isWordStart, Bool.or_eq_true, beq_iff_eq] at h
  rcases h with h | rfl
  · have h : (decide (65 ≤ c.val ∧ c.val ≤ 90) ||
        (decide (97 ≤ c.val) && decide (c.val ≤ 122))) = true := h
    have hc : c.val.toNat = c.toNat := rfl
    simp only [Bool.or_eq_true, Bool.and_eq_true, decide_eq_true_eq, UInt32.le_iff_toNat_le, hc,
      UInt32.reduceToNat] at h
    omega
  · decide

theorem toNat_of_isDigit {c : Char} (h : Digit.isDigit c = true) :
    48 ≤ c.toNat ∧ c.toNat < 58 := by
  rw [Digit.isDigit, Digit.ofChar?] at h
  split at h
  · assumption
  · cases h

theorem IsNumber.head_isDigit {c : Char} {cs : List Char} (h : IsNumber (c :: cs)) :
    Digit.isDigit c = true := by
  rcases h with h | ⟨whole, fraction, hwhole, -, heq⟩
  · exact h.2 c List.mem_cons_self
  · obtain ⟨d, whole, rfl⟩ := List.exists_cons_of_ne_nil hwhole.1
    obtain ⟨rfl, -⟩ := List.cons.inj heq
    exact hwhole.2 c List.mem_cons_self

/-- No lexeme starts with a blank character. -/
theorem IsLexeme.not_isBlank {k : Kind} {c : Char} {cs : List Char} (h : IsLexeme k (c :: cs)) :
    Text.isBlank c = false := by
  cases k with
  | number =>
      have hc := toNat_of_isDigit (IsNumber.head_isDigit h)
      exact not_isBlank_of_toNat (by omega) (by omega)
  | string =>
      obtain ⟨text, -, heq⟩ := h
      obtain ⟨rfl, -⟩ := List.cons.inj heq
      decide
  | eof => cases h
  | equal | notEqual | less | lessOrEqual | greater | greaterOrEqual | leftParen | rightParen
  | comma | dot | star =>
      obtain ⟨rfl, -⟩ := List.cons.inj h
      decide
  | _ =>
      have hc := toNat_of_isWordStart h.1.1
      exact not_isBlank_of_toNat (by omega) (by omega)

/-- A blank text is cut into pieces none of which is a token. -/
theorem Cut.not_token {p : Position} {cs : List Char} {ps : List Piece} (h : Cut p cs ps)
    (hblank : ∀ c ∈ cs, Text.isBlank c = true) (t : Token) : .token t ∉ ps := by
  induction h with
  | done p => nofun
  | space _ _ ih => exact ih (List.forall_mem_cons.mp hblank).2
  | @piece p text rest piece ps htakes _ ih =>
      obtain ⟨htext, hrest⟩ := List.forall_mem_append.mp hblank
      intro hmem
      rcases List.mem_cons.mp hmem with heq | hmem
      · cases htakes with
        | @token kind lexeme rest hhead =>
            have hlexeme := (headToken?_spec hhead).1
            obtain ⟨c, lexeme, rfl⟩ := List.exists_cons_of_ne_nil hlexeme.ne_nil
            cases hlexeme.not_isBlank.symm.trans (htext c List.mem_cons_self)
        | unread => cases heq
      · exact ih hrest hmem

/-! ## The tokens of a text -/

/-- The tokens of a text without the one that marks its end. -/
def body (s : String) : List Token := (pieces .start s.toList).filterMap Piece.token?

theorem tokens_eq (s : String) : tokens s = body s ++ [.eof (Position.start.after s.toList)] := rfl

/-- A text without errors is cut into its tokens. -/
theorem pieces_eq_of_errors_nil {s : String} (h : errors s = []) :
    pieces .start s.toList = (body s).map .token := by
  rw [errors] at h
  rw [body]
  generalize pieces .start s.toList = ps at h
  induction ps with
  | nil => rfl
  | cons piece ps ih =>
      cases piece with
      | token t => exact congrArg _ (ih h)
      | unread e => cases h

theorem body_of_isBlankText {s : String} (h : Text.isBlankText s = true) : body s = [] := by
  rw [List.eq_nil_iff_forall_not_mem]
  intro t ht
  exact (cut_pieces .start s.toList).not_token (by simpa [Text.isBlankText] using h) t
    (mem_filterMap_token?_iff.mp ht)

theorem isLexeme_of_mem_body {s : String} {t : Token} (ht : t ∈ body s) :
    IsLexeme t.kind t.lexeme.toList :=
  (cut_pieces .start s.toList).isLexeme (mem_filterMap_token?_iff.mp ht)

/-- The end mark is the first one. -/
theorem takeWhile_tokens (s : String) : (tokens s).takeWhile (·.kind ≠ .eof) = body s := by
  have hbody : ∀ t ∈ body s, t.kind ≠ .eof := fun t ht => (isLexeme_of_mem_body ht).ne_eof
  rw [tokens_eq, List.takeWhile_append_of_pos (by simpa using hbody)]
  simp [Token.eof]

end Scan

/-! ## Queries -/

namespace Query

/-- The tokens spell a tree of the language that is built into the query. -/
def Spelled (ts : List Token) (q : Query) : Prop :=
  ∃ root : Tree.Root, root.WellFormed maxNesting ∧ Tree.Spells root.written ts ∧
    ofTree root = .ok q

/-- What is known of the tree of an accepted text that is not blank. -/
theorem parse_of_ofText {s : String} {q : Query} (h : ofText s = .ok q) :
    Text.isBlankText s = true ∧ q = neutral ∨
      (Tree.parse (Scan.tokens s)).1.WellFormed maxNesting ∧
        Tree.Spells (Tree.parse (Scan.tokens s)).1.written (Scan.body s) ∧
        ofTree (Tree.parse (Scan.tokens s)).1 = .ok q := by
  rw [ofText] at h
  split at h
  · next hblank =>
      cases h
      exact .inl ⟨hblank, rfl⟩
  · split at h
    · next hempty =>
        obtain ⟨t, hread, hrest, hgood⟩ := Tree.reads_of_isEmpty (Report.isEmpty_of_merge hempty)
        obtain ⟨ts, hts, hspells⟩ := hread.spelled
        rw [hrest, List.append_nil] at hts
        have hts : (Scan.tokens s).takeWhile (·.kind ≠ .eof) = ts := hts
        rw [Scan.takeWhile_tokens] at hts
        refine .inr ⟨hgood, hts ▸ hspells, ?_⟩
        cases hq : ofTree (Tree.parse (Scan.tokens s)).1 with
        | ok q' =>
            rw [hq] at h
            cases h
            rfl
        | error e =>
            rw [hq] at h
            cases h
    · cases h

theorem spelled_of_ofText {s : String} {q : Query} (h : ofText s = .ok q) :
    Text.isBlankText s = true ∧ q = neutral ∨ Spelled (Scan.body s) q :=
  (parse_of_ofText h).imp_right fun htree => ⟨_, htree⟩

/-- A condition is asked for, so no query is spelled by no tokens. -/
theorem Spelled.ne_nil {ts : List Token} {q : Query} (h : Spelled ts q) : ts ≠ [] := by
  rintro rfl
  obtain ⟨root, hroot, hspells, -⟩ := h
  -- the tree would be read off no tokens without a problem, but the parser finds one
  have hparse := Tree.parse_eq_of_spells hroot hspells (e := .eof .start) rfl []
  have hreport : (Tree.parse [.eof .start]).2.isEmpty = false := by decide
  rw [List.nil_append] at hparse
  rw [hparse] at hreport
  cases hreport

theorem ofText_of_spelled {s : String} {ts : List Token}
    (hpieces : Scan.pieces .start s.toList = ts.map .token) {q : Query} (h : Spelled ts q) :
    ofText s = .ok q := by
  have hbody : Scan.body s = ts := by
    rw [Scan.body, hpieces, Scan.filterMap_token?_map]
  have herrors : Scan.errors s = [] := Scan.errors_of_pieces hpieces
  have hblank : ¬ Text.isBlankText s = true := fun hblank =>
    h.ne_nil (hbody ▸ Scan.body_of_isBlankText hblank)
  obtain ⟨root, hroot, hspells, hbuilt⟩ := h
  -- the parser reads the spelled tree and reports nothing
  have hparse : Tree.parse (Scan.tokens s) = (root, .empty) := by
    rw [Scan.tokens_eq, hbody]
    exact Tree.parse_eq_of_spells hroot hspells rfl []
  have hempty : (problems s).isEmpty = true := by
    rw [problems, herrors, hparse]
    simp [Report.merge, Report.ofList, Report.empty, Report.isEmpty]
  rw [ofText, if_neg hblank, if_pos hempty, hparse, hbuilt]
  rfl

end Query

end FilterQuery
