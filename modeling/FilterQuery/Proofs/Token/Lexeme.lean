import FilterQuery.Token.Scan
import Mathlib.Data.List.TakeWhile

/-!
# Lexemes

`Scan.IsLexeme k cs` says that the characters `cs` are a lexeme of the kind `k`: a word and whether
it is reserved, a number, a text in quotes, or the one spelling of a mark. What the scanner takes
at the head of a text is a lexeme of the kind that it gives, and it takes it from the front
(`headToken?_spec`).
-/

set_option autoImplicit false

namespace FilterQuery

/-! ## Reserved words -/

/-- Words that are the same word are the same for every third one. -/
theorem Text.sameWord_congr {s t : String} (h : Text.sameWord s t = true) (u : String) :
    Text.sameWord u t = Text.sameWord u s := by
  rw [Text.sameWord, Text.sameWord, (Text.sameWord_iff s t).mp h]

namespace Kind

theorem ofWord_eq_or_isKeyword (word : String) :
    ofWord word = .identifier ∨ (ofWord word).isKeyword = true := by
  have hkeyword : ∀ p ∈ keywords, p.1.isKeyword = true := by decide
  rw [ofWord]
  cases h : keywords.find? fun p => Text.sameWord p.2 word with
  | none => exact .inl rfl
  | some p => exact .inr (hkeyword p (List.mem_of_find?_eq_some h))

/-- A reserved word is its own label, up to letter case. -/
theorem sameWord_label_ofWord {word : String} (h : (ofWord word).isKeyword = true) :
    Text.sameWord (ofWord word).label word = true := by
  rw [ofWord] at h ⊢
  cases hp : keywords.find? fun p => Text.sameWord p.2 word with
  | none =>
      rw [hp] at h
      cases h
  | some p =>
      have hlabel := (ofWord_keywords p (List.mem_of_find?_eq_some hp)).2
      have hsame := List.find?_some hp
      rwa [hlabel]

end Kind

namespace Scan

/-! ## Classes of lexemes -/

/-- A letter or an underscore, then letters, digits and underscores. -/
def IsWord : List Char → Prop
  | [] => False
  | c :: cs => isWordStart c = true ∧ ∀ d ∈ cs, isWordChar d = true

instance : DecidablePred IsWord
  | [] => inferInstanceAs (Decidable False)
  | c :: cs => decidable_of_iff (isWordStart c = true ∧ cs.all isWordChar = true)
      (and_congr_right' List.all_eq_true)

/-- One digit or more. -/
def IsDigits (cs : List Char) : Prop := cs ≠ [] ∧ ∀ c ∈ cs, Digit.isDigit c = true

instance : DecidablePred IsDigits := fun cs =>
  decidable_of_iff (cs ≠ [] ∧ cs.all Digit.isDigit = true) (and_congr_right' List.all_eq_true)

/-- Digits, or digits on both sides of a point. -/
def IsNumber (cs : List Char) : Prop :=
  IsDigits cs ∨ ∃ whole fraction, IsDigits whole ∧ IsDigits fraction ∧
    cs = whole ++ '.' :: fraction

/-- A text without quotes between two quotes. -/
def IsQuoted (cs : List Char) : Prop := ∃ text, '\'' ∉ text ∧ cs = '\'' :: (text ++ ['\''])

/-- The characters are a lexeme of the kind. -/
def IsLexeme (k : Kind) (cs : List Char) : Prop :=
  match k with
  | .number => IsNumber cs
  | .string => IsQuoted cs
  | .equal | .notEqual | .less | .lessOrEqual | .greater | .greaterOrEqual
  | .leftParen | .rightParen | .comma | .dot | .star => cs = k.label.toList
  | .eof => False
  | _ => IsWord cs ∧ Kind.ofWord (String.ofList cs) = k

theorem isLexeme_ofWord {cs : List Char} (h : IsWord cs) :
    IsLexeme (Kind.ofWord (String.ofList cs)) cs := by
  have hkind := Kind.ofWord_eq_or_isKeyword (String.ofList cs)
  generalize hk : Kind.ofWord (String.ofList cs) = k at hkind
  cases k with
  -- a word is never of one of these kinds
  | string | number | equal | notEqual | less | lessOrEqual | greater | greaterOrEqual
  | leftParen | rightParen | comma | dot | star | eof =>
      simp [Kind.isKeyword, Kind.isAggregate] at hkind
  | _ => exact ⟨h, hk⟩

/-- An end mark has no lexeme. -/
theorem IsLexeme.ne_eof {k : Kind} {cs : List Char} (h : IsLexeme k cs) : k ≠ .eof := by
  rintro rfl
  exact h

/-- A lexeme of a kind of words is a word of this kind. -/
theorem IsLexeme.isWord {k : Kind} {w : String} (h : IsLexeme k w.toList)
    (hk : k = .identifier ∨ k.isKeyword = true) : IsWord w.toList ∧ Kind.ofWord w = k := by
  cases k with
  | string | number | equal | notEqual | less | lessOrEqual | greater | greaterOrEqual
  | leftParen | rightParen | comma | dot | star | eof =>
      simp [Kind.isKeyword, Kind.isAggregate] at hk
  | _ => simpa [IsLexeme] using h

/-- A reserved word is the label of its kind, up to letter case. -/
theorem IsLexeme.sameWord {k : Kind} {cs : List Char} (h : IsLexeme k cs)
    (hk : k.isKeyword = true) : Text.sameWord k.label (String.ofList cs) = true := by
  have hword : Kind.ofWord (String.ofList cs) = k := by
    cases k <;> first | exact h.2 | cases hk
  subst hword
  exact Kind.sameWord_label_ofWord hk

theorem IsLexeme.eq_label {k : Kind} {cs : List Char} (h : IsLexeme k cs)
    (hk : k.isComparison = true) : String.ofList cs = k.label := by
  have hcs : cs = k.label.toList := by
    cases k <;> first | exact h | cases hk
  rw [hcs, String.ofList_toList]

theorem IsNumber.ne_nil {cs : List Char} (h : IsNumber cs) : cs ≠ [] := by
  rcases h with h | ⟨whole, fraction, _, _, rfl⟩
  · exact h.1
  · simp

theorem IsLexeme.ne_nil {k : Kind} {cs : List Char} (h : IsLexeme k cs) : cs ≠ [] := by
  rintro rfl
  cases k with
  | number => exact IsNumber.ne_nil h rfl
  | string =>
      obtain ⟨text, _, htext⟩ := h
      cases htext
  | eof => exact h
  | equal | notEqual | less | lessOrEqual | greater | greaterOrEqual | leftParen | rightParen
  | comma | dot | star => simp [IsLexeme, Kind.label] at h
  | _ => exact h.1

/-! ## The token at the head of a text -/

theorem isWordChar_of_isWordStart {c : Char} (h : isWordStart c = true) : isWordChar c = true := by
  simp only [isWordStart, isWordChar, Char.isAlphanum, Bool.or_eq_true] at h ⊢
  rcases h with h | h
  · exact .inl (.inl h)
  · exact .inr h

theorem isWord_takeWhile {c : Char} (h : isWordStart c = true) (rest : List Char) :
    IsWord ((c :: rest).takeWhile isWordChar) := by
  rw [List.takeWhile_cons_of_pos (isWordChar_of_isWordStart h)]
  exact ⟨h, fun d hd => List.mem_takeWhile_imp hd⟩

theorem isDigits_takeWhile {c : Char} (h : Digit.isDigit c = true) (rest : List Char) :
    IsDigits ((c :: rest).takeWhile Digit.isDigit) := by
  refine ⟨?_, fun d hd => List.mem_takeWhile_imp hd⟩
  rw [List.takeWhile_cons_of_pos h]
  exact List.cons_ne_nil _ _

/-- A number is taken from the front. -/
theorem numberAt_spec {c : Char} (h : Digit.isDigit c = true) (rest : List Char) :
    IsNumber (numberAt (c :: rest)) ∧ numberAt (c :: rest) <+: c :: rest := by
  have hwhole := isDigits_takeWhile h rest
  have hprefix : (c :: rest).takeWhile Digit.isDigit <+: c :: rest := List.takeWhile_prefix _
  have happend := List.prefix_iff_eq_append.mp hprefix
  simp only [numberAt]
  generalize (c :: rest).takeWhile Digit.isDigit = whole at hwhole hprefix happend
  split
  · next d fraction hdrop =>
      rw [hdrop] at happend
      -- the point belongs to the number only if a digit follows it
      split
      · next hd =>
          refine ⟨.inr ⟨whole, _, hwhole, isDigits_takeWhile hd fraction, rfl⟩, ?_⟩
          rw [← happend, List.prefix_append_right_inj, List.cons_prefix_cons]
          exact ⟨rfl, List.takeWhile_prefix _⟩
      · exact ⟨.inl hwhole, hprefix⟩
  · exact ⟨.inl hwhole, hprefix⟩

theorem markAt_spec {cs lexeme : List Char} {k : Kind} (h : markAt cs = some (k, lexeme)) :
    IsLexeme k lexeme ∧ lexeme <+: cs := by
  rw [markAt.eq_def] at h
  split at h
  all_goals
    cases h
    try exact ⟨rfl, _, rfl⟩

/-- A text in quotes ends at the first quote that follows. -/
theorem quoted_prefix {rest : List Char} (h : '\'' ∈ rest) :
    rest.takeWhile (· ≠ '\'') ++ ['\''] <+: rest := by
  induction rest with
  | nil => cases h
  | cons c rest ih =>
      by_cases hc : c = '\''
      · subst hc
        exact ⟨rest, rfl⟩
      · have hrest : '\'' ∈ rest := by simpa [Ne.symm hc] using h
        rw [List.takeWhile_cons_of_pos (by simpa using hc), List.cons_append,
          List.cons_prefix_cons]
        exact ⟨rfl, ih hrest⟩

/-- **The scanner takes lexemes.** -/
theorem headToken?_spec {cs lexeme : List Char} {k : Kind} (h : headToken? cs = some (k, lexeme)) :
    IsLexeme k lexeme ∧ lexeme <+: cs := by
  match cs with
  | [] => cases h
  | c :: rest =>
      rw [headToken?] at h
      by_cases hword : isWordStart c = true
      · rw [if_pos hword] at h
        cases h
        exact ⟨isLexeme_ofWord (isWord_takeWhile hword rest), List.takeWhile_prefix _⟩
      rw [if_neg hword] at h
      by_cases hdigit : Digit.isDigit c = true
      · rw [if_pos hdigit] at h
        cases h
        exact numberAt_spec hdigit rest
      rw [if_neg hdigit] at h
      by_cases hquote : c = '\''
      · rw [if_pos hquote] at h
        by_cases hclosed : '\'' ∈ rest
        · rw [if_pos hclosed] at h
          cases h
          refine ⟨⟨rest.takeWhile (· ≠ '\''), fun hmem => ?_, rfl⟩, ?_⟩
          · simpa using List.mem_takeWhile_imp hmem
          · rw [hquote, List.cons_prefix_cons]
            exact ⟨rfl, quoted_prefix hclosed⟩
        · rw [if_neg hclosed] at h
          cases h
      · rw [if_neg hquote] at h
        exact markAt_spec h

end Scan

end FilterQuery
