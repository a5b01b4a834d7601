import FilterQuery.Proofs.Query.Rejected
import FilterQuery.Proofs.Token.Scans

/-!
# Errors of the scanner and blank texts

A text is a query at once, without a look at its characters, if all of them have the Unicode
property White_Space. The scanner knows only four of these, so a blank text may have errors too,
and these are lost. Of every other text no error of the scanner is lost: the text is rejected, and
its report has them all. Main result: `Query.lexical_report_of_ofText`.
-/

set_option autoImplicit false

namespace FilterQuery

/-! ## Texts without pieces -/

namespace Scan

theorem isSpace_of_cut_nil {p : Position} {cs : List Char} {ps : List Piece} (h : Cut p cs ps)
    (hps : ps = []) : ∀ c ∈ cs, isSpace c = true := by
  induction h with
  | done p => nofun
  | space hspace _ ih => exact List.forall_mem_cons.mpr ⟨hspace, ih hps⟩
  | piece _ _ _ => cases hps

/-- There is nothing in a text but white space if the scanner cuts no piece out of it. -/
theorem pieces_eq_nil_iff (p : Position) (cs : List Char) :
    pieces p cs = [] ↔ ∀ c ∈ cs, isSpace c = true := by
  constructor
  · exact isSpace_of_cut_nil (cut_pieces p cs)
  · intro h
    induction cs generalizing p with
    | nil => rw [pieces]
    | cons c cs ih =>
        obtain ⟨hc, hcs⟩ := List.forall_mem_cons.mp h
        rw [pieces, if_pos hc]
        exact ih _ hcs

theorem pieces_eq_nil_iff_body (s : String) :
    pieces .start s.toList = [] ↔ body s = [] ∧ errors s = [] := by
  constructor
  · intro h
    rw [body, errors, h]
    exact ⟨rfl, rfl⟩
  · rintro ⟨hbody, herrors⟩
    -- a piece is a token or an error
    refine List.eq_nil_iff_forall_not_mem.mpr fun piece hpiece => ?_
    cases piece with
    | token t =>
        have ht : t ∈ body s := mem_filterMap_token?_iff.mpr hpiece
        rw [hbody] at ht
        cases ht
    | unread e =>
        have he : e ∈ errors s := mem_errors_iff.mpr hpiece
        rw [herrors] at he
        cases he

/-- A text without errors is blank if it has no tokens. -/
theorem isBlankText_iff_body {s : String} (h : errors s = []) :
    Text.isBlankText s = true ↔ body s = [] := by
  constructor
  · exact body_of_isBlankText
  · intro hbody
    have hspace := (pieces_eq_nil_iff _ _).mp ((pieces_eq_nil_iff_body s).mpr ⟨hbody, h⟩)
    exact List.all_eq_true.mpr fun c hc => isBlank_of_isSpace (hspace c hc)

/-- The scanner reads a blank text only if there is nothing but the white space that it knows. -/
theorem errors_eq_nil_iff_of_isBlankText {s : String} (h : Text.isBlankText s = true) :
    errors s = [] ↔ ∀ c ∈ s.toList, c ∈ [' ', '\t', '\r', '\n'] := by
  have hpieces : errors s = [] ↔ pieces .start s.toList = [] := by
    rw [pieces_eq_nil_iff_body, and_iff_right (body_of_isBlankText h)]
  rw [hpieces, pieces_eq_nil_iff]
  simp only [isSpace_iff]

end Scan

namespace Query

/-! ## Errors in reports -/

theorem lexical_mem_problems {s : String} {e : LexError} (h : e ∈ Scan.errors s) :
    .lexical e ∈ (problems s).problems := by
  rw [← lexical_problems, Report.lexical, List.mem_filterMap] at h
  obtain ⟨p, hp, he⟩ := h
  cases p with
  | lexical f =>
      cases he
      exact hp
  | grammatical => cases he

/-- A text that the scanner does not read is no query, unless it is blank. -/
theorem ofText_of_errors {s : String} (h : Scan.errors s ≠ [])
    (hblank : Text.isBlankText s = false) : ofText s = .error (.rejected (problems s)) := by
  obtain ⟨e, he⟩ := List.exists_mem_of_ne_nil _ h
  have hproblems : ¬(problems s).isEmpty = true := by
    intro hempty
    have hmem := lexical_mem_problems he
    rw [List.isEmpty_iff.mp hempty] at hmem
    cases hmem
  rw [ofText, if_neg (by simp [hblank]), if_neg hproblems]

theorem ofText_of_isBlankText {s : String} (h : Text.isBlankText s = true) :
    ofText s = .ok neutral := by
  rw [ofText, if_pos h]

/-- **Errors of the scanner are reported**, except for those of a blank text. A text that is not
blank and has errors is rejected; its report has each of them once, in their order. A blank text has
no tokens and is taken for the neutral query; it has errors where a character is none of the four
that the scanner skips. -/
theorem lexical_report_of_ofText (s : String) :
    (Text.isBlankText s = false → Scan.errors s ≠ [] →
        ∃ r, ofText s = .error (.rejected r) ∧ r.lexical = Scan.errors s ∧
          ∀ e ∈ Scan.errors s, .lexical e ∈ r.problems) ∧
      (Text.isBlankText s = true →
        ofText s = .ok neutral ∧ Scan.tokens s = [.eof (Position.start.after s.toList)] ∧
          (Scan.errors s = [] ↔ ∀ c ∈ s.toList, c ∈ [' ', '\t', '\r', '\n'])) := by
  constructor
  · intro hblank herrors
    exact ⟨problems s, ofText_of_errors herrors hblank, lexical_problems s,
      fun e he => lexical_mem_problems he⟩
  · intro hblank
    refine ⟨ofText_of_isBlankText hblank, ?_, Scan.errors_eq_nil_iff_of_isBlankText hblank⟩
    rw [Scan.tokens_eq, Scan.body_of_isBlankText hblank, List.nil_append]

/-- A comparison before a space that does not break. -/
def unbrokenText : String := "a = 1\u00a0"

theorem lexical_report_of_ofText_unbrokenText :
    Text.isBlankText unbrokenText = false ∧ Scan.errors unbrokenText ≠ [] ∧
      ∃ r, ofText unbrokenText = .error (.rejected r) ∧
        r.lexical = [.unrecognized "\u00a0" ⟨5, 1, 6⟩] := by
  have hblank : Text.isBlankText unbrokenText = false := by decide +kernel
  have herrors : Scan.errors unbrokenText = [.unrecognized "\u00a0" ⟨5, 1, 6⟩] := by decide +kernel
  have hne : Scan.errors unbrokenText ≠ [] := by simp [herrors]
  obtain ⟨r, hr, hlexical, -⟩ := (lexical_report_of_ofText unbrokenText).1 hblank hne
  exact ⟨hblank, hne, r, hr, hlexical.trans herrors⟩

/-- The same space alone is an error of the scanner, and yet the text is the neutral query. -/
theorem ofText_unbrokenSpace :
    Scan.errors "\u00a0" = [.unrecognized "\u00a0" ⟨0, 1, 1⟩] ∧ ofText "\u00a0" = .ok neutral := by
  have hblank : Text.isBlankText "\u00a0" = true := by decide +kernel
  exact ⟨by decide +kernel, ofText_of_isBlankText hblank⟩

end Query

end FilterQuery
