import FilterQuery.Proofs.Parser.Twins
import FilterQuery.Proofs.Query.Blank
import FilterQuery.Proofs.Token.Moved

/-!
# The end mark

Tokens without an end mark get one behind the last token (`Parser.endAfter`). The parser never keeps
it in a tree, and otherwise sees nothing of it but its byte offset; so the tokens of a text are
parsed alike with the mark of the scanner and without it, but for the place of what is wrong at the
end of the text.

The mark that is made up stands on the line on which the last token starts, as many columns behind
it as the token has bytes. That is the end of the text only if the token is narrow: if each of its
characters is one byte, and none a line feed. Main result: `Tree.parse_dropLast_tokens`.
-/

set_option autoImplicit false

namespace FilterQuery

/-! ## Places behind a lexeme -/

theorem length_le_byteSize (cs : List Char) : cs.length ≤ byteSize cs := by
  induction cs with
  | nil => exact Nat.le_refl 0
  | cons c cs ih =>
      have hsize := c.utf8Size_pos
      rw [List.length_cons, byteSize_cons]
      omega

theorem byteSize_eq_length_iff {cs : List Char} :
    byteSize cs = cs.length ↔ ∀ c ∈ cs, c.utf8Size = 1 := by
  induction cs with
  | nil => simp
  | cons c cs ih =>
      have hsize := c.utf8Size_pos
      have hle := length_le_byteSize cs
      rw [List.forall_mem_cons, ← ih, List.length_cons, byteSize_cons]
      omega

namespace Position

theorem line_after (p : Position) (cs : List Char) :
    (p.after cs).line = p.line + cs.count '\n' := by
  induction cs generalizing p with
  | nil => simp
  | cons c cs ih =>
      rw [after_cons, ih, step]
      split
      · next hfeed =>
          rw [hfeed, List.count_cons_self]
          dsimp only
          omega
      · next hfeed => rw [List.count_cons_of_ne hfeed]

theorem column_after {p : Position} {cs : List Char} (h : '\n' ∉ cs) :
    (p.after cs).column = p.column + cs.length := by
  induction cs generalizing p with
  | nil => simp
  | cons c cs ih =>
      have hc : c ≠ '\n' := fun hc => h (hc ▸ List.mem_cons_self)
      rw [after_cons, ih fun hcs => h (List.mem_cons_of_mem _ hcs), step, if_neg hc,
        List.length_cons]
      dsimp only
      omega

/-- Counting the bytes of a text as columns of one line is right if every character is one byte,
and none a line feed. -/
theorem after_eq_iff {p : Position} {cs : List Char} :
    p.after cs = ⟨p.offset + byteSize cs, p.line, p.column + byteSize cs⟩ ↔
      ∀ c ∈ cs, c.utf8Size = 1 ∧ c ≠ '\n' := by
  have hfeeds : (∀ c ∈ cs, c ≠ '\n') ↔ '\n' ∉ cs :=
    ⟨fun h hmem => h _ hmem rfl, fun h c hc heq => h (heq ▸ hc)⟩
  rw [forall₂_and, ← byteSize_eq_length_iff, hfeeds]
  have hline := line_after p cs
  constructor
  · intro h
    have hfeed : '\n' ∉ cs := by
      rw [h] at hline
      dsimp only at hline
      exact List.count_eq_zero.mp (by omega)
    have hcolumn := column_after (p := p) hfeed
    rw [h] at hcolumn
    exact ⟨Nat.add_left_cancel hcolumn, hfeed⟩
  · rintro ⟨hsize, hfeed⟩
    have hcolumn := column_after (p := p) hfeed
    rw [List.count_eq_zero.mpr hfeed] at hline
    rw [hsize, ← hcolumn, ← hsize, ← offset_after]
    exact congrArg (fun line => Position.mk _ line _) hline

end Position

/-- Every character of the lexeme is one byte, and none a line feed. -/
def Token.Narrow (t : Token) : Prop := ∀ c ∈ t.lexeme.toList, c.utf8Size = 1 ∧ c ≠ '\n'

-- by name: the instance that is found might try all characters
instance : DecidablePred Token.Narrow := fun t =>
  List.decidableBAll (fun c : Char => c.utf8Size = 1 ∧ c ≠ '\n') t.lexeme.toList

/-! ## The end of a text -/

namespace Scan

/-- A text that does not end in white space ends where its last piece ends. -/
theorem Cut.after_eq {p : Position} {cs : List Char} {ps : List Piece} (h : Cut p cs ps)
    (hend : ∀ c ∈ cs.getLast?, isSpace c = false) {t : Token}
    (ht : ps.getLast? = some (.token t)) : p.after cs = t.toPosition.after t.lexeme.toList := by
  have hrest : ∀ text rest : List Char, (∀ c ∈ (text ++ rest).getLast?, isSpace c = false) →
      ∀ c ∈ rest.getLast?, isSpace c = false := by
    intro text rest h c hc
    exact h c (by simp [List.getLast?_append, Option.mem_def.mp hc])
  induction h with
  | done p => cases ht
  | @space p c rest ps hspace tail ih => exact ih (hrest [c] rest hend) ht
  | @piece p text rest piece ps htakes tail ih =>
      rw [Position.after_append]
      cases ps with
      | cons next ps => exact ih (hrest text rest hend) ht
      | nil =>
          -- behind the last piece there could be white space only, and there is none
          have hnil : rest = [] := by
            by_contra hne
            have hlast := List.getLast?_eq_some_getLast hne
            have hspace := isSpace_of_cut_nil tail rfl _ (List.getLast_mem hne)
            rw [hrest text rest hend _ hlast] at hspace
            cases hspace
          obtain rfl : piece = .token t := Option.some.inj ht
          cases htakes with
          | token =>
              show _ = p.after (String.ofList text).toList
              rw [hnil, Position.after_nil, String.toList_ofList]

/-- The end of a text without errors, from its last token. -/
theorem after_eq_of_getLast? {s : String} (herrors : errors s = [])
    (hend : ∀ c ∈ s.toList.getLast?, isSpace c = false) {t : Token}
    (ht : (body s).getLast? = some t) :
    Position.start.after s.toList = t.toPosition.after t.lexeme.toList := by
  refine (cut_pieces .start s.toList).after_eq hend ?_
  rw [pieces_eq_of_errors_nil herrors, List.getLast?_map, ht]
  rfl

/-- Only the empty text has neither errors nor tokens nor white space at its end. -/
theorem eq_nil_of_body_eq_nil {s : String} (herrors : errors s = [])
    (hend : ∀ c ∈ s.toList.getLast?, isSpace c = false) (hbody : body s = []) : s.toList = [] := by
  by_contra hne
  have hlast := List.getLast?_eq_some_getLast hne
  have hspaces := (pieces_eq_nil_iff .start s.toList).mp
    ((pieces_eq_nil_iff_body s).mpr ⟨hbody, herrors⟩)
  have hspace := hspaces _ (List.getLast_mem hne)
  rw [hend _ hlast] at hspace
  cases hspace

theorem offset_lt_of_mem_body {s : String} {t : Token} (ht : t ∈ body s) :
    t.offset < s.utf8ByteSize := by
  obtain ⟨-, -, hbefore⟩ := List.pairwise_append.mp (increasing_tokens s)
  rw [← offset_end]
  exact hbefore t ht _ List.mem_cons_self

/-- Only the end mark stands behind the last byte. -/
theorem eq_eof_of_offset {s : String} {t : Token} (ht : t ∈ tokens s)
    (h : t.offset = s.utf8ByteSize) : t = .eof (Position.start.after s.toList) := by
  rw [tokens_eq] at ht
  rcases List.mem_append.mp ht with ht | ht
  · exact absurd h (Nat.ne_of_lt (offset_lt_of_mem_body ht))
  · exact List.mem_singleton.mp ht

end Scan

theorem Token.eof_inj {p q : Position} : Token.eof p = Token.eof q ↔ p = q :=
  ⟨fun h => congrArg Token.toPosition h, fun h => congrArg Token.eof h⟩

namespace Parser

theorem endAfter_concat (ts : List Token) (t : Token) :
    endAfter (ts ++ [t]) = .eof ⟨t.offset + byteSize t.lexeme.toList, t.line,
      t.column + byteSize t.lexeme.toList⟩ := by
  rw [endAfter, List.getLast?_concat, byteSize_toList]

theorem endAfter_eq_eof (ts : List Token) : endAfter ts = .eof (endAfter ts).toPosition := by
  rw [endAfter]
  split
  · rfl
  · rfl

/-- **The end mark that is made up** stands at the last byte of the text, and is the mark of the
scanner exactly if the last token is narrow. -/
theorem endAfter_body {s : String} (herrors : Scan.errors s = [])
    (hend : ∀ c ∈ s.toList.getLast?, Scan.isSpace c = false) :
    (endAfter (Scan.body s)).offset = s.utf8ByteSize ∧
      (endAfter (Scan.body s) = .eof (Position.start.after s.toList) ↔
        ∀ t ∈ (Scan.body s).getLast?, t.Narrow) := by
  have hoffset := Scan.offset_end s
  rcases List.eq_nil_or_concat' (Scan.body s) with hbody | ⟨ts, t, hbody⟩
  · have hnil := Scan.eq_nil_of_body_eq_nil herrors hend hbody
    rw [hnil] at hoffset
    rw [hbody, hnil]
    exact ⟨hoffset, by simp [endAfter]⟩
  · have hlast : (Scan.body s).getLast? = some t := by rw [hbody, List.getLast?_concat]
    have hafter := Scan.after_eq_of_getLast? herrors hend hlast
    rw [hafter, Position.offset_after] at hoffset
    rw [hlast, hbody, endAfter_concat, hafter]
    refine ⟨hoffset, ?_⟩
    rw [Token.eof_inj, eq_comm]
    exact Position.after_eq_iff.trans ⟨fun h u hu => Option.some.inj hu ▸ h, fun h => h t rfl⟩

end Parser

/-! ## What is wrong at the end -/

/-- The problem, placed at `p` if it is a complaint of the parser at the byte offset of `p`. -/
def Problem.moveTo (p : Position) : Problem → Problem
  | .lexical e => .lexical e
  | .grammatical e => .grammatical (if e.offset = p.offset then { e with toPosition := p } else e)

/-- The report with the complaints at the byte offset of `p` placed at `p`. -/
def Report.moveTo (p : Position) (r : Report) : Report := ⟨r.problems.map (Problem.moveTo p)⟩

theorem Problem.moveTo_eq_self_iff {p : Position} {e : SyntaxError} :
    (grammatical e).moveTo p = .grammatical e ↔ (e.offset = p.offset → e.toPosition = p) := by
  rw [moveTo, grammatical.injEq]
  split
  · next h =>
      rw [forall_prop_of_true h]
      exact ⟨fun heq => (congrArg SyntaxError.toPosition heq).symm, fun heq => by rw [← heq]⟩
  · next h => exact iff_of_true rfl fun heq => absurd heq h

theorem Report.moveTo_eq_self_iff {p : Position} {r : Report} :
    r.moveTo p = r ↔ ∀ q ∈ r.problems, q.moveTo p = q := by
  have hmap : r.problems.map (Problem.moveTo p) = r.problems.map id ↔
      ∀ q ∈ r.problems, q.moveTo p = q := List.map_inj_left
  rw [List.map_id] at hmap
  rw [← hmap]
  exact ⟨fun h => congrArg Report.problems h, fun h => congrArg Report.mk h⟩

theorem Complaint.message_eof (c : Complaint) (p q : Position) :
    c.message (.eof p) = c.message (.eof q) := by
  cases c <;> rfl

namespace Parser

/-- A token in front of the end mark, or the two end marks. -/
def SameOrEnd (ts : List Token) (e e' : Position) (t u : Token) : Prop :=
  t ∈ ts ∧ t = u ∨ t = .eof e ∧ u = .eof e'

section

variable {ts : List Token} {e e' : Position}

theorem SameOrEnd.lexeme_eq {t u : Token} (h : SameOrEnd ts e e' t u) : t.lexeme = u.lexeme := by
  rcases h with ⟨-, rfl⟩ | ⟨rfl, rfl⟩
  · rfl
  · rfl

theorem SameOrEnd.offset_eq (he : e.offset = e'.offset) {t u : Token}
    (h : SameOrEnd ts e e' t u) : t.offset = u.offset := by
  rcases h with ⟨-, rfl⟩ | ⟨rfl, rfl⟩
  · rfl
  · exact he

/-- The parser cannot tell the end marks apart. -/
theorem pairs_sameOrEnd (he : e.offset = e'.offset) : Pairs id (SameOrEnd ts e e') where
  image := by
    rintro t u (⟨-, rfl⟩ | ⟨rfl, rfl⟩) hkind
    · rfl
    · exact absurd rfl hkind
  kind := by
    rintro t u (⟨-, rfl⟩ | ⟨rfl, rfl⟩)
    · rfl
    · rfl
  number h _ := h.lexeme_eq
  place h h' := by rw [h.offset_eq he, h'.offset_eq he]

/-- A complaint at the end mark is moved with it, and the others stay. -/
theorem eq_moveTo_of_echoes (he : e.offset = e'.offset) (hbefore : ∀ t ∈ ts, t.offset ≠ e.offset)
    {p q : Problem} (h : Echoes (SameOrEnd ts e e') p q) : q = p.moveTo e' := by
  obtain ⟨t, u, c, d, htu, hcd, rfl, rfl⟩ := h
  have hcd : c = d := by
    cases hcd with
    | refl c => rfl
    | starOutsideCount h => rw [h.lexeme_eq]
  subst hcd
  rcases htu with ⟨ht, rfl⟩ | ⟨rfl, rfl⟩
  · have hplace : t.offset ≠ e'.offset := he ▸ hbefore t ht
    exact congrArg Problem.grammatical (if_neg hplace).symm
  · rw [SyntaxError.atToken, SyntaxError.atToken, c.message_eof e' e]
    exact congrArg Problem.grammatical (if_pos he).symm

end

end Parser

namespace Tree

open FilterQuery.Parser

/-- **Without its end mark** a list of tokens is parsed into the same tree, with the same complaints
but for the place of those at the end. -/
theorem parse_eq_moveTo {ts : List Token} (hts : ∀ t ∈ ts, t.kind ≠ .eof) {e : Position}
    (he : e.offset = (endAfter ts).offset) (hbefore : ∀ t ∈ ts, t.offset ≠ e.offset) :
    parse ts = ((parse (ts ++ [.eof e])).1,
      (parse (ts ++ [.eof e])).2.moveTo (endAfter ts).toPosition) := by
  have hR : Pairs id (SameOrEnd ts e (endAfter ts).toPosition) := pairs_sameOrEnd he
  have hstart : Twins (SameOrEnd ts e (endAfter ts).toPosition) (.ofTokens (ts ++ [.eof e]))
      (.ofTokens ts) := by
    rw [ofTokens_closed hts rfl, ofTokens_open hts]
    exact ⟨List.forall₂_same.mpr fun t ht => .inl ⟨ht, rfl⟩, .inr ⟨rfl, endAfter_eq_eof ts⟩, rfl,
      .nil⟩
  obtain ⟨hroot, hend⟩ := (even_root hR).run hstart
  rw [Agree, Root.map_id, Root.map_id] at hroot
  rw [parse_eq, parse_eq]
  generalize root.run (.ofTokens (ts ++ [.eof e])) = x at hroot hend ⊢
  generalize root.run (.ofTokens ts) = y at hroot hend ⊢
  have hproblems : List.Forall₂ Eq (x.2.report.moveTo (endAfter ts).toPosition).problems
      y.2.report.problems :=
    List.forall₂_map_left_iff.mpr
      (hend.problems.imp fun _ _ h => (eq_moveTo_of_echoes he hbefore h).symm)
  rw [List.forall₂_eq_eq_eq] at hproblems
  rw [← hroot]
  exact congrArg (fun ps => (x.1, Report.mk ps)) hproblems.symm

/-- Complaints at the end of a text are moved to another place, unless it is the end. -/
theorem moveTo_parse_eq_iff {s : String} {p : Position} (hp : p.offset = s.utf8ByteSize) :
    (parse (Scan.tokens s)).2.moveTo p = (parse (Scan.tokens s)).2 ↔
      p = Position.start.after s.toList ∨
        ∀ q ∈ (parse (Scan.tokens s)).2.problems, q.offset ≠ s.utf8ByteSize := by
  have hmoved : ∀ q ∈ (parse (Scan.tokens s)).2.problems,
      q.moveTo p = q ↔ (q.offset = s.utf8ByteSize → p = Position.start.after s.toList) := by
    intro q hq
    obtain ⟨t, ht, message, rfl⟩ := (Query.complaints_of_text s).1 q hq
    rw [Problem.moveTo_eq_self_iff, hp]
    refine forall_congr' fun hoffset => ?_
    rw [Scan.eq_eof_of_offset ht hoffset]
    exact eq_comm
  rw [Report.moveTo_eq_self_iff]
  constructor
  · intro h
    by_cases hend : p = Position.start.after s.toList
    · exact .inl hend
    · exact .inr fun q hq hoffset => hend ((hmoved q hq).mp (h q hq) hoffset)
  · rintro (h | h) q hq
    · exact (hmoved q hq).mpr fun _ => h
    · exact (hmoved q hq).mpr fun hoffset => absurd hoffset (h q hq)

/-- **Tokens of a text without their end mark.** If a text has no errors and does not end in white
space, then its tokens are parsed into the same tree with their end mark and without it. The
complaints are the same too, but that those at the end of the text are placed where the end mark is
made up, which is the end of the text exactly if the last token is narrow. So nothing changes
exactly if it is narrow, or nothing is wrong at the end. -/
theorem parse_dropLast_tokens {s : String} (herrors : Scan.errors s = [])
    (hend : ∀ c ∈ s.toList.getLast?, Scan.isSpace c = false) :
    parse (Scan.tokens s).dropLast = ((parse (Scan.tokens s)).1,
        (parse (Scan.tokens s)).2.moveTo (endAfter (Scan.tokens s).dropLast).toPosition) ∧
      (endAfter (Scan.tokens s).dropLast).offset = s.utf8ByteSize ∧
      ((Scan.tokens s).getLast? = some (endAfter (Scan.tokens s).dropLast) ↔
        ∀ t ∈ (Scan.tokens s).dropLast.getLast?, t.Narrow) ∧
      (parse (Scan.tokens s).dropLast = parse (Scan.tokens s) ↔
        (∀ t ∈ (Scan.tokens s).dropLast.getLast?, t.Narrow) ∨
          ∀ p ∈ (parse (Scan.tokens s)).2.problems, p.offset ≠ s.utf8ByteSize) := by
  have hbody : (Scan.tokens s).dropLast = Scan.body s := List.dropLast_concat
  have hlast : (Scan.tokens s).getLast? = some (.eof (Position.start.after s.toList)) :=
    List.getLast?_concat
  obtain ⟨hoffset, hnarrow⟩ := endAfter_body herrors hend
  have hkinds : ∀ t ∈ Scan.body s, t.kind ≠ .eof := fun t ht =>
    (Scan.isLexeme_of_mem_body ht).ne_eof
  have hbefore : ∀ t ∈ Scan.body s, t.offset ≠ (Position.start.after s.toList).offset := by
    intro t ht
    rw [Scan.offset_end]
    exact Nat.ne_of_lt (Scan.offset_lt_of_mem_body ht)
  have hparse := parse_eq_moveTo hkinds (hoffset ▸ Scan.offset_end s) hbefore
  rw [← Scan.tokens_eq] at hparse
  rw [hbody, hlast, Option.some_inj, eq_comm (a := Token.eof _)]
  refine ⟨hparse, hoffset, hnarrow, ?_⟩
  rw [hparse, ← hnarrow, endAfter_eq_eof, Token.eof_inj, ← moveTo_parse_eq_iff hoffset]
  generalize parse (Scan.tokens s) = x
  exact Prod.ext_iff.trans (and_iff_right rfl)

/-- A text that breaks off behind a narrow token, and has a wider one before it. -/
def brokenOffText : String := "name = 'Zoë' AND total >"

theorem parse_dropLast_tokens_brokenOffText : Scan.errors brokenOffText = [] ∧
    (∀ c ∈ brokenOffText.toList.getLast?, Scan.isSpace c = false) ∧
      (∀ t ∈ (Scan.tokens brokenOffText).dropLast.getLast?, t.Narrow) ∧
      (parse (Scan.tokens brokenOffText)).2.size = 1 ∧
      parse (Scan.tokens brokenOffText).dropLast = parse (Scan.tokens brokenOffText) := by
  have herrors : Scan.errors brokenOffText = [] := by decide +kernel
  have hlast : brokenOffText.toList.getLast? = some '>' := by decide +kernel
  have hend : ∀ c ∈ brokenOffText.toList.getLast?, Scan.isSpace c = false := by
    rw [hlast]
    rintro c ⟨⟩
    rfl
  have hnarrow : ∀ t ∈ (Scan.tokens brokenOffText).dropLast.getLast?, t.Narrow := by
    decide +kernel
  exact ⟨herrors, hend, hnarrow, by decide +kernel,
    (parse_dropLast_tokens herrors hend).2.2.2.mpr (.inl hnarrow)⟩

/-- Behind a letter of two bytes the end mark is made up one column too far to the right. -/
theorem parse_dropLast_tokens_openList : Scan.errors "a IN ('é'" = [] ∧
    (∀ c ∈ "a IN ('é'".toList.getLast?, Scan.isSpace c = false) ∧
      (parse (Scan.tokens "a IN ('é'")).2.problems = [.grammatical ⟨⟨10, 1, 10⟩,
        "expected ')' to close the IN list, found end of input", ""⟩] ∧
      (parse (Scan.tokens "a IN ('é'").dropLast).2.problems = [.grammatical ⟨⟨10, 1, 11⟩,
        "expected ')' to close the IN list, found end of input", ""⟩] ∧
      parse (Scan.tokens "a IN ('é'").dropLast ≠ parse (Scan.tokens "a IN ('é'") := by
  have hfull : (parse (Scan.tokens "a IN ('é'")).2.problems = [.grammatical ⟨⟨10, 1, 10⟩,
      "expected ')' to close the IN list, found end of input", ""⟩] := by
    decide +kernel
  have hopen : (parse (Scan.tokens "a IN ('é'").dropLast).2.problems = [.grammatical ⟨⟨10, 1, 11⟩,
      "expected ')' to close the IN list, found end of input", ""⟩] := by
    decide +kernel
  have hlast : "a IN ('é'".toList.getLast? = some '\'' := by decide +kernel
  have hend : ∀ c ∈ "a IN ('é'".toList.getLast?, Scan.isSpace c = false := by
    rw [hlast]
    rintro c ⟨⟩
    rfl
  refine ⟨by decide +kernel, hend, hfull, hopen, fun heq => ?_⟩
  rw [heq, hfull] at hopen
  exact absurd hopen (by decide)

end Tree

end FilterQuery
