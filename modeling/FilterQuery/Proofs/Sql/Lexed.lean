import FilterQuery.Proofs.Sql.Reader

/-!
# Lexemes of written conditions

The text of a predicate has the lexemes of the predicate. `Lexes` is the relation between a text and
its lexemes that `lexemes` computes (`Lexes.lexemes_eq`). A part of a text may only be cut off where
the next character cannot belong to it: `Spells d ok ps ts` says that the pieces `ps` have the
lexemes `ts` before every text for which `ok` holds, and is closed under putting pieces together.
Expressions and predicates need a text that satisfies `Ends`, the words between them allow any. The
main result is `Predicate.spells_pieces`.
-/

set_option autoImplicit false

namespace FilterQuery.Sql

/-! ## Heads of texts -/

/-- A character other than the quote character belongs to the name. -/
theorem readQuoted_cons {q c : Char} (h : c ≠ q) (cs : List Char) :
    readQuoted q (c :: cs) = (readQuoted q cs).map fun (s, rest) => (c :: s, rest) := by
  cases cs with
  | nil => simp [readQuoted, h]
  | cons d cs => rw [readQuoted, if_neg h]

/-- **A written name is read back**, and reading stops where it was closed. -/
theorem readQuoted_double (q : Char) (s rest : List Char) (h : rest.head? ≠ some q) :
    readQuoted q (Dialect.double q s ++ q :: rest) = some (s, rest) := by
  induction s with
  | nil =>
      cases rest with
      | nil => simp [Dialect.double, readQuoted]
      | cons d rest =>
          have hd : d ≠ q := by simpa using h
          simp [Dialect.double, readQuoted, hd]
  | cons c s ih =>
      by_cases hc : c = q
      · subst hc
        simp [Dialect.double, readQuoted, ih]
      · rw [Dialect.double, if_neg hc, List.cons_append, readQuoted_cons hc, ih]
        rfl

/-- A written number is read back. -/
theorem span_text (n : Nat) (rest : List Char) (h : ∀ c ∈ rest.head?, Digit.isDigit c = false) :
    Decimal.span (Decimal.text n ++ rest) = (Decimal.digits n, rest) :=
  Decimal.span_map_toChar _ h

/-- What follows a part of a condition: a blank, a closing parenthesis, a comma, or nothing. -/
def Ends (rest : List Char) : Prop := ∀ c ∈ rest.head?, c = ' ' ∨ c = ')' ∨ c = ','

namespace Ends

variable {rest : List Char}

theorem nil : Ends [] := nofun

theorem blank (cs : List Char) : Ends (' ' :: cs) := by
  rintro c ⟨⟩
  exact .inl rfl

theorem closing (cs : List Char) : Ends (')' :: cs) := by
  rintro c ⟨⟩
  exact .inr (.inl rfl)

theorem comma (cs : List Char) : Ends (',' :: cs) := by
  rintro c ⟨⟩
  exact .inr (.inr rfl)

theorem not_isWordChar (h : Ends rest) : ∀ c ∈ rest.head?, isWordChar c = false := by
  intro c hc
  rcases h c hc with rfl | rfl | rfl <;> decide

theorem not_isDigit (h : Ends rest) : ∀ c ∈ rest.head?, Digit.isDigit c = false := by
  intro c hc
  rcases h c hc with rfl | rfl | rfl <;> decide

theorem head_ne_quoteChar (h : Ends rest) (d : Dialect) : rest.head? ≠ some d.quoteChar := by
  intro hhead
  cases d <;> rcases h _ hhead with hc | hc | hc <;> exact absurd hc (by decide)

end Ends

theorem ne_of_isAlpha {c e : Char} (hc : c.isAlpha = true) (he : e.isAlpha = false) : c ≠ e := by
  rintro rfl
  rw [hc] at he
  cases he

theorem isWhitespace_of_isAlpha {c : Char} (hc : c.isAlpha = true) : c.isWhitespace = false := by
  rw [Bool.eq_false_iff]
  intro hblank
  simp only [Char.isWhitespace, Bool.or_eq_true, decide_eq_true_eq] at hblank
  rcases hblank with ((rfl | rfl) | rfl) | rfl <;> exact absurd hc (by decide)

/-! ## Texts and their lexemes -/

/-- A text and its lexemes, where the first placeholder has the index `index` and the placeholders
stand for the parameters. -/
inductive Lexes (d : Dialect) : Nat → List Literal → List Char → List Lexeme → Prop where
  | done {index : Nat} : Lexes d index [] [] []
  | blank {index : Nat} {params : List Literal} {c : Char} {cs : List Char} {ts : List Lexeme}
      (hc : c.isWhitespace = true) (h : Lexes d index params cs ts) :
      Lexes d index params (c :: cs) ts
  | placeholder {index : Nat} {params : List Literal} {l : Literal} {c : Char}
      {cs rest : List Char} {ts : List Lexeme} (hc : c.isWhitespace = false)
      (hread : placeholder? d index (c :: cs) = some rest) (hrest : rest.length ≤ cs.length)
      (h : Lexes d (index + 1) params rest ts) :
      Lexes d index (l :: params) (c :: cs) (.param l :: ts)
  | lexeme {index : Nat} {params : List Literal} {t : Lexeme} {c : Char} {cs rest : List Char}
      {ts : List Lexeme} (hc : c.isWhitespace = false)
      (hno : placeholder? d index (c :: cs) = none)
      (hread : lexeme? d (c :: cs) = some (t, rest)) (hrest : rest.length ≤ cs.length)
      (h : Lexes d index params rest ts) : Lexes d index params (c :: cs) (t :: ts)

/-- Reading finds the lexemes, as every lexeme takes a character. -/
theorem Lexes.lexemes_eq {d : Dialect} {index : Nat} {params : List Literal} {text : List Char}
    {ts : List Lexeme} (h : Lexes d index params text ts) {fuel : Nat}
    (hfuel : text.length < fuel) : lexemes d fuel index params text = some ts := by
  obtain ⟨fuel, rfl⟩ := Nat.exists_eq_succ_of_ne_zero (Nat.ne_zero_of_lt hfuel)
  induction h generalizing fuel with
  | done => rfl
  | blank hc _ ih =>
      rw [List.length_cons] at hfuel
      obtain ⟨fuel, rfl⟩ := Nat.exists_eq_succ_of_ne_zero (show fuel ≠ 0 by omega)
      rw [lexemes, if_pos hc]
      exact ih fuel (by omega)
  | placeholder hc hread hrest _ ih =>
      rw [List.length_cons] at hfuel
      obtain ⟨fuel, rfl⟩ := Nat.exists_eq_succ_of_ne_zero (show fuel ≠ 0 by omega)
      rw [lexemes, if_neg (by simp [hc]), hread]
      simp only [ih fuel (by omega), Option.map_some]
  | lexeme hc hno hread hrest _ ih =>
      rw [List.length_cons] at hfuel
      obtain ⟨fuel, rfl⟩ := Nat.exists_eq_succ_of_ne_zero (show fuel ≠ 0 by omega)
      rw [lexemes, if_neg (by simp [hc]), hno]
      simp only [hread, ih fuel (by omega), Option.map_some]

section Lexes

variable {d : Dialect} {index : Nat} {params : List Literal} {rest : List Char} {ts : List Lexeme}

theorem placeholder?_eq_none {c : Char} {cs : List Char} (hdollar : c ≠ '$') (hmark : c ≠ '?') :
    placeholder? d index (c :: cs) = none := by
  rw [placeholder?]
  · rintro _ ⟨⟩
    exact hdollar rfl
  · rintro _ ⟨⟩
    exact hmark rfl

/-- A sign or an operator at the head of a text. -/
theorem Lexes.symbol {c : Char} {cs : List Char} {t : Lexeme}
    (hc : c ∈ ['(', ')', ',', '.', '*', '=', '<', '>'])
    (hread : symbol? (c :: cs) = some (t, rest)) (hrest : rest.length ≤ cs.length)
    (h : Lexes d index params rest ts) : Lexes d index params (c :: cs) (t :: ts) := by
  have hclass : ['(', ')', ',', '.', '*', '=', '<', '>'].all fun c =>
      decide ((c.isWhitespace = false ∧ c ≠ '$' ∧ c ≠ '?') ∧
        ¬ c.isAlpha ∧ ¬ Digit.isDigit c ∧ c ≠ d.quoteChar) := by
    cases d <;> decide
  obtain ⟨⟨hblank, hdollar, hmark⟩, halpha, hdigit, hquote⟩ :=
    of_decide_eq_true (List.all_eq_true.mp hclass c hc)
  refine .lexeme hblank (placeholder?_eq_none hdollar hmark) ?_ hrest h
  rw [lexeme?, if_neg hquote, if_neg halpha, if_neg hdigit]
  exact hread

/-- A word at the head of a text, if no other character of a word follows. -/
theorem Lexes.word (w : Word) (hrest : ∀ c ∈ rest.head?, isWordChar c = false)
    (h : Lexes d index params rest ts) :
    Lexes d index params (w.text.toList ++ rest) (.word w :: ts) := by
  have hall : w.text.toList.all isWordChar := by
    cases w with
    | function f => cases f <;> decide
    | and | or | is | not | null | between | isIn => decide
  have hchars := List.all_eq_true.mp hall
  have htake : (w.text.toList ++ rest).takeWhile isWordChar = w.text.toList := by
    rw [List.takeWhile_append_of_pos hchars]
    cases rest with
    | nil => simp
    | cons c rest => simp [hrest c rfl]
  have hdrop : (w.text.toList ++ rest).dropWhile isWordChar = rest := by
    rw [List.dropWhile_append_of_pos hchars]
    cases rest with
    | nil => simp
    | cons c rest => simp [hrest c rfl]
  obtain ⟨c, cs, htext, hc⟩ : ∃ c cs, w.text.toList = c :: cs ∧ c.isAlpha = true := by
    cases w with
    | function f => cases f <;> exact ⟨_, _, rfl, by decide⟩
    | and | or | is | not | null | between | isIn => exact ⟨_, _, rfl, by decide⟩
  have hquote : c ≠ d.quoteChar := by
    cases d <;> exact ne_of_isAlpha hc (by decide)
  rw [htext, List.cons_append] at htake hdrop ⊢
  refine .lexeme (isWhitespace_of_isAlpha hc) (placeholder?_eq_none (ne_of_isAlpha hc (by decide))
    (ne_of_isAlpha hc (by decide))) ?_ (by simp) h
  rw [lexeme?, if_neg hquote, if_pos hc, htake, hdrop, ← htext, String.ofList_toList,
    Word.ofText?_text]
  rfl

/-- A word before a blank. -/
theorem Lexes.word_blank (w : Word) (h : Lexes d index params rest ts) :
    Lexes d index params (w.text.toList ++ ' ' :: rest) (.word w :: ts) :=
  .word w (Ends.blank rest).not_isWordChar (.blank (by decide) h)

/-- The number one, if no other digit follows. -/
theorem Lexes.one (hrest : ∀ c ∈ rest.head?, Digit.isDigit c = false)
    (h : Lexes d index params rest ts) :
    Lexes d index params ('1' :: rest) (.number 1 :: ts) := by
  have hdigits : Decimal.digits 1 = [1] := by
    rw [Decimal.digits]
    rfl
  have hspan : Decimal.span ('1' :: rest) = ([1], rest) := by
    have hread := span_text 1 rest hrest
    rwa [Decimal.text, hdigits] at hread
  have hquote : '1' ≠ d.quoteChar := by cases d <;> decide
  refine .lexeme (by decide) (placeholder?_eq_none (by decide) (by decide)) ?_ (Nat.le_refl _) h
  rw [lexeme?, if_neg hquote, if_neg (by decide), if_pos (by decide), hspan]
  rfl

/-- A quoted name. -/
theorem Lexes.name (s : String) (hrest : rest.head? ≠ some d.quoteChar)
    (h : Lexes d index params rest ts) :
    Lexes d index params (d.quote s.toList ++ rest) (.name s :: ts) := by
  have hblank : d.quoteChar.isWhitespace = false := by cases d <;> decide
  have hno : placeholder? d index
      (d.quoteChar :: (Dialect.double d.quoteChar s.toList ++ d.quoteChar :: rest)) = none :=
    placeholder?_eq_none (by cases d <;> decide) (by cases d <;> decide)
  rw [Dialect.quote, List.cons_append, List.append_assoc, List.singleton_append]
  refine .lexeme hblank hno ?_ (by simp; omega) h
  simp [lexeme?, readQuoted_double _ _ _ hrest]

/-- The placeholder of the next parameter. -/
theorem Lexes.param (l : Literal) (hrest : ∀ c ∈ rest.head?, Digit.isDigit c = false)
    (h : Lexes d (index + 1) params rest ts) :
    Lexes d index (l :: params) (d.placeholder index ++ rest) (.param l :: ts) := by
  cases d with
  | postgres =>
      rw [Dialect.placeholder, List.cons_append]
      refine .placeholder (by decide) ?_ (by simp) h
      rw [placeholder?, span_text _ _ hrest, if_pos ⟨rfl, Decimal.value_digits _⟩]
  | mysql =>
      show Lexes .mysql index (l :: params) ('?' :: rest) _
      exact .placeholder (by decide) (by rw [placeholder?, if_pos rfl]) (Nat.le_refl _) h

end Lexes

/-! ## Pieces and their lexemes -/

/-- The pieces have the lexemes before every text for which `ok` holds. -/
def Spells (d : Dialect) (ok : List Char → Prop) (ps : List Piece) (ts : List Lexeme) : Prop :=
  ∀ index params rest out, ok rest → Lexes d (index + (Piece.params ps).length) params rest out →
    Lexes d index (Piece.params ps ++ params) (Piece.write d index ps ++ rest) (ts ++ out)

namespace Piece

@[simp] theorem params_nil : params [] = [] := rfl

@[simp] theorem params_word (s : String) (ps : List Piece) : params (.word s :: ps) = params ps :=
  rfl

@[simp] theorem params_identifier (s : String) (ps : List Piece) :
    params (.identifier s :: ps) = params ps := rfl

@[simp] theorem params_param (l : Literal) (ps : List Piece) :
    params (.param l :: ps) = l :: params ps := rfl

theorem params_append (ps qs : List Piece) : params (ps ++ qs) = params ps ++ params qs :=
  List.filterMap_append ..

theorem write_append (d : Dialect) (index : Nat) (ps qs : List Piece) :
    write d index (ps ++ qs) = write d index ps ++ write d (index + (params ps).length) qs := by
  induction ps generalizing index with
  | nil => rfl
  | cons p ps ih =>
      cases p with
      | word s => simp [write, ih]
      | identifier s => simp [write, ih]
      | param l => simp [write, ih, Nat.add_assoc, Nat.add_comm 1]

end Piece

section Spells

variable {d : Dialect} {ok ok' : List Char → Prop} {ps qs : List Piece} {ts us : List Lexeme}

/-- Pieces are put together where the text of the second ones may follow the first ones. -/
theorem Spells.append (h : Spells d ok ps ts) (h' : Spells d ok' qs us)
    (hok : ∀ index rest, ok' rest → ok (Piece.write d index qs ++ rest)) :
    Spells d ok' (ps ++ qs) (ts ++ us) := by
  intro index params rest out hrest hout
  rw [Piece.params_append, List.length_append, ← Nat.add_assoc] at hout
  have hsecond := h' _ _ _ _ hrest hout
  have hfirst := h _ _ _ _ (hok _ _ hrest) hsecond
  rw [Piece.params_append, Piece.write_append, List.append_assoc, List.append_assoc,
    List.append_assoc]
  exact hfirst

/-- A fixed text. -/
theorem Spells.word {s : String} (h : ∀ index params rest out, ok rest →
    Lexes d index params rest out → Lexes d index params (s.toList ++ rest) (ts ++ out)) :
    Spells d ok [.word s] ts := by
  intro index params rest out hrest hout
  rw [Piece.write, Piece.write, List.append_nil]
  exact h index params rest out hrest hout

end Spells

section Fixed

variable (d : Dialect)

/-- A sign of one character. -/
theorem spells_sign (ok : List Char → Prop) {s : String} {c : Char} {t : Lexeme}
    (hs : s.toList = [c]) (hc : c ∈ ['(', ')', ',', '.', '*', '=', '<', '>'])
    (hread : ∀ rest, symbol? (c :: rest) = some (t, rest)) : Spells d ok [.word s] [t] := by
  refine .word fun index params rest out _ hout => ?_
  rw [hs]
  exact .symbol hc (hread rest) (Nat.le_refl _) hout

theorem spells_opening : Spells d (fun _ => True) [.word "("] [.opening] :=
  spells_sign d _ (by rfl) (by decide) fun _ => rfl

theorem spells_closing : Spells d Ends [.word ")"] [.closing] :=
  spells_sign d _ (by rfl) (by decide) fun _ => rfl

theorem spells_star : Spells d (fun _ => True) [.word "*"] [.star] :=
  spells_sign d _ (by rfl) (by decide) fun _ => rfl

/-- A function's name is followed by its parenthesis. -/
theorem spells_function (f : Aggregate) :
    Spells d (fun _ => True) [.word f.name, .word "("] [.word (.function f), .opening] := by
  intro index params rest out _ hout
  have hopening : Lexes d index params ('(' :: rest) (.opening :: out) :=
    .symbol (by decide) rfl (Nat.le_refl _) hout
  have hname := Lexes.word (.function f) (by rintro c ⟨⟩; decide) hopening
  simpa [Piece.write, Word.text] using hname

theorem spells_comma : Spells d (fun _ => True) [.word ", "] [.comma] :=
  .word fun _ _ _ _ _ h => .symbol (by decide) rfl (by simp) (.blank (by decide) h)

/-- An operator between blanks. -/
theorem spells_operator {o : Operator} (ho : o.isBinary = true) :
    Spells d (fun _ => True) [.word " ", .word (operatorWord o), .word " "] [.operator o] := by
  intro index params rest out _ hout
  have hblank : Lexes d index params (' ' :: rest) out := .blank (by decide) hout
  cases o with
  | eq | ne | lt | lte | gt | gte =>
      exact .blank (by decide) (.symbol (by decide) rfl (by simp [Piece.write]) hblank)
  | isIn | between | isNull | isNotNull => cases ho

/-- A word between blanks. -/
theorem spells_between_blanks {s : String} (w : Word)
    (hs : s.toList = ' ' :: (w.text.toList ++ [' '])) :
    Spells d (fun _ => True) [.word s] [.word w] := by
  refine .word fun index params rest out _ hout => ?_
  rw [hs, List.cons_append, List.append_assoc]
  exact .blank (by decide) (.word_blank w hout)

theorem spells_isNull : Spells d Ends [.word " IS NULL"] [.word .is, .word .null] := by
  refine .word fun index params rest out hrest hout => ?_
  have hnull := Lexes.word .null hrest.not_isWordChar hout
  exact .blank (by decide) (.word_blank .is hnull)

theorem spells_isNotNull :
    Spells d Ends [.word " IS NOT NULL"] [.word .is, .word .not, .word .null] := by
  refine .word fun index params rest out hrest hout => ?_
  have hnull := Lexes.word .null hrest.not_isWordChar hout
  exact .blank (by decide) (.word_blank .is (.word_blank .not hnull))

theorem spells_isIn : Spells d (fun _ => True) [.word " IN ("] [.word .isIn, .opening] := by
  refine .word fun index params rest out _ hout => ?_
  have hopening : Lexes d index params ('(' :: rest) (.opening :: out) :=
    .symbol (by decide) rfl (Nat.le_refl _) hout
  exact .blank (by decide) (.word_blank .isIn hopening)

theorem spells_always : Spells d Ends [.word "1 = 1"]
    [.number 1, .operator .eq, .number 1] := by
  refine .word fun index params rest out hrest hout => ?_
  have hlast : Lexes d index params ('1' :: rest) (.number 1 :: out) :=
    .one hrest.not_isDigit hout
  have heq : Lexes d index params ('=' :: ' ' :: '1' :: rest) (.operator .eq :: .number 1 :: out) :=
    .symbol (by decide) rfl (by simp) (.blank (by decide) hlast)
  exact .one (Ends.blank _).not_isDigit (.blank (by decide) heq)

end Fixed

/-! ## Expressions -/

/-- The lexemes of an expression. -/
def Expr.lexemes : Expr → List Lexeme
  | .column c => [.name c.label, .dot, .name c.name]
  | .param l => [.param l]
  | .aggregate f e => .word (.function f) :: .opening :: (e.lexemes ++ [.closing])
  | .aggregateAll f => [.word (.function f), .opening, .star, .closing]

/-- The text of an expression has its lexemes. -/
theorem Expr.spells_pieces (d : Dialect) (e : Expr) : Spells d Ends e.pieces e.lexemes := by
  induction e with
  | column c =>
      intro index params rest out hrest hout
      have hname := Lexes.name c.name (hrest.head_ne_quoteChar d) hout
      have hdot : Lexes d index params ('.' :: (d.quote c.name.toList ++ rest))
          (.dot :: .name c.name :: out) := .symbol (by decide) rfl (Nat.le_refl _) hname
      have hlabel := Lexes.name c.label (by cases d <;> simp [Dialect.quoteChar]) hdot
      simpa [Expr.pieces, Piece.qualified, Piece.write, Expr.lexemes] using hlabel
  | param l =>
      intro index params rest out hrest hout
      have hparam := Lexes.param l hrest.not_isDigit hout
      simpa [Expr.pieces, Piece.write, Expr.lexemes] using hparam
  | aggregate f e ih =>
      have hargument := ih.append (spells_closing d) fun _ _ _ => .closing _
      exact (spells_function d f).append hargument fun _ _ _ => trivial
  | aggregateAll f =>
      have hstar : Spells d Ends [.word "*", .word ")"] [.star, .closing] :=
        (spells_star d).append (spells_closing d) fun _ _ _ => trivial
      exact (spells_function d f).append hstar fun _ _ _ => trivial

/-- Lists of lexemes with a lexeme between neighbours. -/
def Lexeme.separated (separator : Lexeme) : List (List Lexeme) → List Lexeme
  | [] => []
  | [ts] => ts
  | ts :: tss => ts ++ separator :: separated separator tss

theorem Expr.spells_listPieces (d : Dialect) (es : List Expr) :
    Spells d Ends (Expr.listPieces es) (Lexeme.separated .comma (es.map Expr.lexemes)) := by
  induction es with
  | nil =>
      intro index params rest out _ hout
      exact hout
  | cons e es ih =>
      cases es with
      | nil => exact e.spells_pieces d
      | cons e' es =>
          have hrest := (spells_comma d).append ih fun _ _ _ => trivial
          exact (e.spells_pieces d).append hrest fun _ _ _ => .comma _

/-! ## Predicates -/

namespace Predicate

/-- Comparisons have operators that stand between two operands, and lists have items. -/
def wellFormed : Predicate → Bool
  | .compare o _ _ => o.isBinary
  | .isIn _ vs => !vs.isEmpty
  | .and l r | .or l r => l.wellFormed && r.wellFormed
  | .always | .isNull _ | .isNotNull _ | .between _ _ _ => true

/-- Lexemes in parentheses where the predicate binds less tightly than what is around it. -/
def encloseLexemes (p : Predicate) (around : Nat) (ts : List Lexeme) : List Lexeme :=
  if p.precedence < around then .opening :: (ts ++ [.closing]) else ts

/-- Nothing binds less tightly than a disjunction. -/
theorem encloseLexemes_one (p : Predicate) (ts : List Lexeme) : p.encloseLexemes 1 ts = ts := by
  have hprecedence : 1 ≤ p.precedence := by cases p <;> simp [precedence]
  rw [encloseLexemes, if_neg (by omega)]

/-- The lexemes of a predicate. -/
def lexemes : Predicate → List Lexeme
  | .always => [.number 1, .operator .eq, .number 1]
  | .compare o l r => l.lexemes ++ .operator o :: r.lexemes
  | .isNull e => e.lexemes ++ [.word .is, .word .null]
  | .isNotNull e => e.lexemes ++ [.word .is, .word .not, .word .null]
  | .between e l h => e.lexemes ++ .word .between :: (l.lexemes ++ .word .and :: h.lexemes)
  | .isIn e vs => e.lexemes ++ .word .isIn :: .opening ::
      (Lexeme.separated .comma (vs.map Expr.lexemes) ++ [.closing])
  | .and l r => l.encloseLexemes 2 l.lexemes ++ .word .and :: r.encloseLexemes 2 r.lexemes
  | .or l r => l.encloseLexemes 1 l.lexemes ++ .word .or :: r.encloseLexemes 1 r.lexemes

theorem spells_enclose {d : Dialect} {p : Predicate} (h : Spells d Ends p.pieces p.lexemes)
    (around : Nat) :
    Spells d Ends (p.enclose around p.pieces) (p.encloseLexemes around p.lexemes) := by
  rw [enclose, encloseLexemes]
  split
  · have hinside := h.append (spells_closing d) fun _ _ _ => .closing _
    exact (spells_opening d).append hinside fun _ _ _ => trivial
  · exact h

/-- **The text of a predicate has its lexemes.** -/
theorem spells_pieces (d : Dialect) (p : Predicate) (h : p.wellFormed = true) :
    Spells d Ends p.pieces p.lexemes := by
  induction p with
  | always => exact spells_always d
  | compare o l r =>
      have hright := (spells_operator d h).append (r.spells_pieces d) fun _ _ _ => trivial
      exact (l.spells_pieces d).append hright fun _ _ _ => .blank _
  | isNull e => exact (e.spells_pieces d).append (spells_isNull d) fun _ _ _ => .blank _
  | isNotNull e => exact (e.spells_pieces d).append (spells_isNotNull d) fun _ _ _ => .blank _
  | between e l u =>
      have hbetween := spells_between_blanks d .between (by rfl : " BETWEEN ".toList = _)
      have hand := spells_between_blanks d .and (by rfl : " AND ".toList = _)
      have hupper := hand.append (u.spells_pieces d) fun _ _ _ => trivial
      have hlower := (l.spells_pieces d).append hupper fun _ _ _ => .blank _
      have hbounds := hbetween.append hlower fun _ _ _ => trivial
      exact (e.spells_pieces d).append hbounds fun _ _ _ => .blank _
  | isIn e vs =>
      have hclosing := (Expr.spells_listPieces d vs).append (spells_closing d)
        fun _ _ _ => .closing _
      have hlist := (spells_isIn d).append hclosing fun _ _ _ => trivial
      exact (e.spells_pieces d).append hlist fun _ _ _ => .blank _
  | and l r ihl ihr =>
      obtain ⟨hl, hr⟩ := Bool.and_eq_true_iff.mp h
      have hand := spells_between_blanks d .and (by rfl : " AND ".toList = _)
      have hright := hand.append (spells_enclose (ihr hr) 2) fun _ _ _ => trivial
      exact (spells_enclose (ihl hl) 2).append hright fun _ _ _ => .blank _
  | or l r ihl ihr =>
      obtain ⟨hl, hr⟩ := Bool.and_eq_true_iff.mp h
      have hor := spells_between_blanks d .or (by rfl : " OR ".toList = _)
      have hright := hor.append (spells_enclose (ihr hr) 1) fun _ _ _ => trivial
      exact (spells_enclose (ihl hl) 1).append hright fun _ _ _ => .blank _

end Predicate

end FilterQuery.Sql
