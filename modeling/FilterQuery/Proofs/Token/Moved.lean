import FilterQuery.Proofs.Token.Scans
import FilterQuery.Proofs.Token.Tiling

/-!
# Texts that are moved

What the scanner takes at the head of a text it takes there too if more characters follow, unless
the first of them could belong to a lexeme (`headToken?_append_apart`). So a text that is cut into
tokens is cut into the same tokens at every place of a longer text, before everything that stands
apart; only their places are others (`exists_moved`).
-/

set_option autoImplicit false

namespace FilterQuery

/-- The token at the start of a text. -/
def Token.bare (t : Token) : Token :=
  { Position.start with kind := t.kind, lexeme := t.lexeme }

namespace Scan

/-! ## The head of a longer text -/

/-- What follows does not count if a character stops before it, or if its first one does. -/
theorem takeWhile_append_of_stop {p : Char → Bool} {cs rest : List Char}
    (h : (∀ c ∈ cs, p c = true) → ∀ c ∈ rest.head?, p c = false) :
    (cs ++ rest).takeWhile p = cs.takeWhile p := by
  induction cs with
  | nil => exact takeWhile_append_eq nofun (h nofun)
  | cons c cs ih =>
      rw [List.cons_append, List.takeWhile_cons, List.takeWhile_cons]
      split
      · next hc => rw [ih fun hcs => h (List.forall_mem_cons.mpr ⟨hc, hcs⟩)]
      · rfl

/-- A number goes on behind its whole part only with a point. -/
theorem numberAt_of_head_ne {cs : List Char}
    (h : ∀ c ∈ (cs.drop (cs.takeWhile Digit.isDigit).length).head?, c ≠ '.') :
    numberAt cs = cs.takeWhile Digit.isDigit := by
  rw [numberAt]
  split
  · next heq =>
      rw [heq] at h
      exact absurd rfl (h '.' rfl)
  · rfl

theorem numberAt_append_apart {cs rest : List Char} (hrest : Stops .number rest) :
    numberAt (cs ++ rest) = numberAt cs := by
  have hdigit : ∀ c ∈ rest.head?, Digit.isDigit c = false := fun c hc => (hrest c hc).1
  have hwhole := @takeWhile_append_of_stop _ cs _ fun _ => hdigit
  have hlength : (cs.takeWhile Digit.isDigit).length ≤ cs.length :=
    (List.takeWhile_prefix _).length_le
  have hdrop := @List.drop_append_of_le_length _ cs rest _ hlength
  cases htail : cs.drop (cs.takeWhile Digit.isDigit).length with
  | nil =>
      rw [htail, List.nil_append] at hdrop
      rw [numberAt_of_head_ne, numberAt_of_head_ne, hwhole]
      · simp [htail]
      · rw [hwhole, hdrop]
        exact fun c hc => (hrest c hc).2
  | cons c tail =>
      by_cases hc : c = '.'
      · subst hc
        -- the fraction, if there is one, is a run of digits again
        rw [numberAt, numberAt, hwhole, hdrop, htail]
        cases tail with
        | nil =>
            cases rest with
            | nil => rfl
            | cons d rest => simp [(hrest d rfl).1]
        | cons d tail =>
            simp only [List.cons_append]
            rw [← List.cons_append, takeWhile_append_of_stop fun _ => hdigit]
      · rw [htail, List.cons_append] at hdrop
        rw [numberAt_of_head_ne, numberAt_of_head_ne, hwhole]
        · simpa [htail] using hc
        · rw [hwhole, hdrop]
          simpa using hc

theorem markAt_append_apart {cs rest lexeme : List Char} {k : Kind} (hrest : Apart rest)
    (h : markAt cs = some (k, lexeme)) : markAt (cs ++ rest) = some (k, lexeme) := by
  rw [markAt.eq_def] at h
  split at h
  case h_12 => cases h
  case h_5 cs hne | h_6 cs hne =>
    -- a longer mark would need an equals sign, here or behind the text
    have hequal : ∀ tail, cs ++ rest = '=' :: tail → False := by
      intro tail heq
      cases cs with
      | nil => exact hrest .less '=' (by rw [← List.nil_append rest, heq]; rfl) rfl
      | cons d cs =>
          obtain ⟨rfl, -⟩ := List.cons.inj heq
          exact hne cs rfl
    cases h
    rw [List.cons_append, markAt]
    exact hequal
  all_goals
    cases h
    rfl

/-- **What the scanner takes stays the same** if something follows that stands apart. -/
theorem headToken?_append_apart {cs rest lexeme : List Char} {k : Kind} (hrest : Apart rest)
    (h : headToken? cs = some (k, lexeme)) : headToken? (cs ++ rest) = some (k, lexeme) := by
  match cs with
  | [] => cases h
  | c :: cs =>
      have hword : (c :: cs ++ rest).takeWhile isWordChar = (c :: cs).takeWhile isWordChar :=
        takeWhile_append_of_stop fun _ => hrest .identifier
      have hnumber : numberAt (c :: cs ++ rest) = numberAt (c :: cs) :=
        numberAt_append_apart (hrest .number)
      rw [List.cons_append] at hword hnumber ⊢
      rw [headToken?] at h ⊢
      rw [hword, hnumber]
      by_cases hstart : isWordStart c = true
      · rwa [if_pos hstart] at h ⊢
      rw [if_neg hstart] at h ⊢
      by_cases hdigit : Digit.isDigit c = true
      · rwa [if_pos hdigit] at h ⊢
      rw [if_neg hdigit] at h ⊢
      by_cases hquote : c = '\''
      · rw [if_pos hquote] at h ⊢
        by_cases hclosed : '\'' ∈ cs
        · have htext : (cs ++ rest).takeWhile (· ≠ '\'') = cs.takeWhile (· ≠ '\'') :=
            takeWhile_append_of_stop fun hopen => by simpa using hopen _ hclosed
          rw [if_pos hclosed] at h
          rwa [if_pos (List.mem_append_left _ hclosed), htext]
        · rw [if_neg hclosed] at h
          cases h
      · rw [if_neg hquote] at h ⊢
        exact markAt_append_apart hrest h

/-! ## A text at another place -/

/-- **A text that is cut into tokens is cut into the same tokens at every place**, whatever stands
apart behind it. -/
theorem exists_moved {p : Position} {cs : List Char} {ts : List Token}
    (h : pieces p cs = ts.map .token) (p' : Position) :
    ∃ us : List Token, us.map Token.bare = ts.map Token.bare ∧
      ∀ rest, Apart rest →
        pieces p' (cs ++ rest) = us.map .token ++ pieces (p'.after cs) rest := by
  have hcut := cut_pieces p cs
  generalize pieces p cs = ps at h hcut
  induction hcut generalizing ts p' with
  | done p =>
      rw [List.map_eq_nil_iff.mp h.symm]
      exact ⟨[], rfl, fun rest _ => rfl⟩
  | @space p c cs ps hspace _ ih =>
      obtain ⟨us, hus, hpieces⟩ := ih (p'.step c) h
      refine ⟨us, hus, fun rest hrest => ?_⟩
      rw [List.cons_append, pieces_space p' hspace, hpieces rest hrest, Position.after_cons]
  | @piece p text cs piece ps htakes _ ih =>
      cases ts with
      | nil => cases h
      | cons t ts =>
          rw [List.map_cons, List.cons.injEq] at h
          obtain ⟨rfl, hps⟩ := h
          obtain ⟨us, hus, hpieces⟩ := ih (p'.after text) hps
          cases htakes with
          | @token kind lexeme cs hhead =>
              refine ⟨tokenAt p' kind text :: us, ?_, fun rest hrest => ?_⟩
              · rw [List.map_cons, List.map_cons, hus]
                rfl
              · have hhead' := headToken?_append_apart hrest hhead
                rw [List.append_assoc] at hhead' ⊢
                rw [pieces_of_headToken? p' hhead', hpieces rest hrest, Position.after_append]
                rfl

/-! ## Places of tokens -/

/-- The tokens of a cut stand one behind the other, and the end of the text behind the last. -/
theorem Cut.increasing_tokens {p : Position} {cs : List Char} {ps : List Piece} (h : Cut p cs ps) :
    (ps.filterMap Piece.token? ++ [Token.eof (p.after cs)]).Pairwise
      fun t u => t.offset < u.offset := by
  have hsublist : ((ps.filterMap Piece.token?).map Token.span).Sublist (ps.map Piece.span) :=
    sublist_spans (fun piece t ht => by cases piece <;> cases ht; rfl) _
  have htokens := h.increasing.sublist (hsublist.append (.refl _))
  have hmap : (ps.filterMap Piece.token?).map Token.span ++ [Span.mk (p.after cs).offset ""] =
      (ps.filterMap Piece.token? ++ [Token.eof (p.after cs)]).map Token.span := by
    rw [List.map_append]
    rfl
  rwa [hmap, List.pairwise_map] at htokens

theorem increasing_tokens (s : String) : (tokens s).Pairwise fun t u => t.offset < u.offset :=
  (cut_pieces .start s.toList).increasing_tokens

end Scan

end FilterQuery
