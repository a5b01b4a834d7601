import FilterQuery.Proofs.Token.Munch

/-!
# Lexemes with white space between them

A text can be written from any lexemes if white space keeps neighbours apart. A `Chunk` is a lexeme
together with the white space in front of it, and `spaced xs after` is the text of the chunks `xs`
with the white space `after` behind the last. Main result: the scanner takes such a text apart
again, whatever its strings hold (`tokens_spaced`).

Which texts are lexemes is said by `OfKind` without the scanner: a word is a plain identifier if it
is none of the reserved words, up to letter case.
-/

set_option autoImplicit false

namespace FilterQuery

/-- The operators and the delimiters, which have one spelling each. -/
def Kind.isMark : Kind → Bool
  | .leftParen | .rightParen | .comma | .dot | .star => true
  | k => k.isComparison

namespace Scan

/-! ## Lexemes by their kind -/

/-- The texts that a token of a kind is written with. -/
inductive OfKind : Kind → String → Prop where
  | keyword {k : Kind} {w : String} (hk : k.isKeyword = true)
      (hw : Text.sameWord k.label w = true) : OfKind k w
  | identifier {w : String} (hword : IsWord w.toList)
      (hfree : ∀ k : Kind, k.isKeyword = true → Text.sameWord k.label w = false) :
      OfKind .identifier w
  | number {w : String} (h : IsNumber w.toList) : OfKind .number w
  | string {w : String} (h : IsQuoted w.toList) : OfKind .string w
  | mark {k : Kind} (hk : k.isMark = true) : OfKind k k.label

/-- A word that differs from the reserved words is an identifier. -/
theorem ofWord_eq_identifier {w : String}
    (hfree : ∀ k : Kind, k.isKeyword = true → Text.sameWord k.label w = false) :
    Kind.ofWord w = .identifier := by
  rcases Kind.ofWord_eq_or_isKeyword w with h | h
  · exact h
  · have hsame := Kind.sameWord_label_ofWord h
    rw [hfree _ h] at hsame
    cases hsame

/-- What a kind is written with is a lexeme of this kind for the scanner. -/
theorem OfKind.isLexeme {k : Kind} {w : String} (h : OfKind k w) : IsLexeme k w.toList := by
  cases h with
  | keyword hk hw => exact isLexeme_of_sameWord hk hw
  | identifier hword hfree =>
      have hlexeme := isLexeme_ofWord hword
      rwa [String.ofList_toList, ofWord_eq_identifier hfree] at hlexeme
  | number h => exact h
  | string h => exact h
  | mark hk => cases k <;> first | rfl | cases hk

/-! ## White space -/

/-- Spaces, tabs, carriage returns and line feeds only. -/
def IsGap (s : String) : Prop := ∀ c ∈ s.toList, c ∈ [' ', '\t', '\r', '\n']

instance : DecidablePred IsGap := fun s =>
  decidable_of_iff (s.toList.all (· ∈ [' ', '\t', '\r', '\n']) = true) (by simp [IsGap])

/-- No lexeme goes on into white space. -/
theorem apart_of_isSpace {c : Char} (hc : isSpace c = true) (rest : List Char) :
    Apart (c :: rest) := by
  simp only [isSpace, Bool.or_eq_true, beq_iff_eq] at hc
  rintro k _ ⟨⟩
  rcases hc with ((rfl | rfl) | rfl) | rfl <;> cases k <;> decide

theorem apart_gap_append {gap : String} (hgap : IsGap gap) {rest : List Char}
    (hrest : gap = "" → Apart rest) : Apart (gap.toList ++ rest) := by
  cases hcs : gap.toList with
  | nil => exact hrest (String.toList_eq_nil_iff.mp hcs)
  | cons c cs =>
      have hc : c ∈ gap.toList := hcs ▸ List.mem_cons_self
      exact apart_of_isSpace ((isSpace_iff c).mpr (hgap c hc)) _

/-- White space is skipped. -/
theorem pieces_gap_append (p : Position) {gap : String} (hgap : IsGap gap) (rest : List Char) :
    pieces p (gap.toList ++ rest) = pieces (p.after gap.toList) rest := by
  have hspaces : ∀ c ∈ gap.toList, isSpace c = true := fun c hc => (isSpace_iff c).mpr (hgap c hc)
  generalize gap.toList = cs at hspaces
  induction cs generalizing p with
  | nil => rfl
  | cons c cs ih =>
      obtain ⟨hc, hcs⟩ := List.forall_mem_cons.mp hspaces
      rw [List.cons_append, pieces_space p hc, ih _ hcs, Position.after_cons]

/-! ## Spaced texts -/

/-- A lexeme with the white space in front of it. -/
structure Chunk where
  gap : String
  kind : Kind
  lexeme : String
  isGap : IsGap gap
  ofKind : OfKind kind lexeme

/-- The chunks one after the other, and white space behind the last. -/
def spaced : List Chunk → String → String
  | [], after => after
  | x :: xs, after => x.gap ++ (x.lexeme ++ spaced xs after)

/-- Where every chunk has white space in front of it, no lexeme goes on into the first. -/
theorem apart_spaced {xs : List Chunk} (hgaps : ∀ x ∈ xs, x.gap ≠ "") {after : String}
    (hafter : IsGap after) : Apart (spaced xs after).toList := by
  cases xs with
  | nil =>
      have happart := apart_gap_append hafter fun _ => apart_nil
      rwa [List.append_nil] at happart
  | cons x xs =>
      rw [spaced, String.toList_append]
      exact apart_gap_append x.isGap fun hempty => absurd hempty (hgaps x List.mem_cons_self)

/-- The pieces of a spaced text are its lexemes, at every place. -/
theorem exists_pieces_spaced {xs : List Chunk} (hgaps : ∀ x ∈ xs.tail, x.gap ≠ "") {after : String}
    (hafter : IsGap after) (p : Position) :
    ∃ ts : List Token, pieces p (spaced xs after).toList = ts.map .token ∧
      ts.map (fun t => (t.kind, t.lexeme)) = xs.map fun x => (x.kind, x.lexeme) := by
  induction xs generalizing p with
  | nil =>
      refine ⟨[], ?_, rfl⟩
      have hpieces := pieces_gap_append p hafter []
      rwa [List.append_nil, pieces] at hpieces
  | cons x xs ih =>
      -- the lexeme ends before the white space of the next chunk, or before that at the end
      have hstops : Stops x.kind (spaced xs after).toList := apart_spaced hgaps hafter x.kind
      have hlexeme := pieces_lexeme (p.after x.gap.toList) x.ofKind.isLexeme hstops
      have htail : ∀ y ∈ xs.tail, y.gap ≠ "" := fun y hy => hgaps y (List.mem_of_mem_tail hy)
      obtain ⟨ts, hpieces, hts⟩ := ih htail ((p.after x.gap.toList).after x.lexeme.toList)
      refine ⟨tokenAt (p.after x.gap.toList) x.kind x.lexeme.toList :: ts, ?_, ?_⟩
      · rw [spaced, String.toList_append, String.toList_append, pieces_gap_append p x.isGap,
          hlexeme, hpieces, List.map_cons]
      · rw [List.map_cons, List.map_cons, hts]
        simp only [tokenAt, String.ofList_toList]

/-- **Scanning undoes writing.** Any lexemes with white space between neighbours, and maybe white
space around them, are scanned as tokens of their kinds, in their order, and nothing is left
unread. -/
theorem tokens_spaced (xs : List Chunk) (hgaps : ∀ x ∈ xs.tail, x.gap ≠ "") (after : String)
    (hafter : IsGap after) :
    (tokens (spaced xs after)).map (fun t => (t.kind, t.lexeme)) =
        xs.map (fun x => (x.kind, x.lexeme)) ++ [(.eof, "")] ∧
      errors (spaced xs after) = [] := by
  obtain ⟨ts, hpieces, hts⟩ := exists_pieces_spaced hgaps hafter .start
  refine ⟨?_, errors_of_pieces hpieces⟩
  rw [tokens, hpieces, filterMap_token?_map, List.map_append, hts]
  rfl

/-- A reserved word in mixed case, a word that starts with one, a sign, a number and two strings,
the first of which holds an operator, a line feed and a letter of two bytes. -/
def motleyChunks : List Chunk :=
  [⟨"", .group, "GrOuP", by decide, .keyword rfl (by decide)⟩,
    ⟨"\t ", .identifier, "groups_2", by decide, .identifier (by decide) fun k _ => by
      cases k <;> rfl⟩,
    ⟨"\r\n", .lessOrEqual, "<=", by decide, .mark rfl⟩,
    ⟨" ", .number, "007.50", by decide, .number (.inr ⟨['0', '0', '7'], ['5', '0'], by decide,
      by decide, rfl⟩)⟩,
    ⟨"\n\n", .string, "'é AND\n<= ('", by decide, .string ⟨"é AND\n<= (".toList, by decide, rfl⟩⟩,
    ⟨"\r", .string, "''", by decide, .string ⟨[], by decide, rfl⟩⟩]

theorem tokens_spaced_motleyChunks :
    (∀ x ∈ motleyChunks.tail, x.gap ≠ "") ∧ IsGap " \t" ∧
      (tokens (spaced motleyChunks " \t")).map (fun t => (t.kind, t.lexeme)) =
        [(.group, "GrOuP"), (.identifier, "groups_2"), (.lessOrEqual, "<="), (.number, "007.50"),
          (.string, "'é AND\n<= ('"), (.string, "''"), (.eof, "")] ∧
      errors (spaced motleyChunks " \t") = [] := by
  have hgaps : ∀ x ∈ motleyChunks.tail, x.gap ≠ "" := by
    simp [motleyChunks]
  have hafter : IsGap " \t" := by decide
  exact ⟨hgaps, hafter, tokens_spaced motleyChunks hgaps " \t" hafter⟩

end Scan

end FilterQuery
