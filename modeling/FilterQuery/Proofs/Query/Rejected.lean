import FilterQuery.Proofs.Parser.Complaints
import FilterQuery.Proofs.Query.Accepted
import FilterQuery.Proofs.Token.Tiling

/-!
# Reports of rejected texts

The report of a rejected text merges the errors of the scanner and the complaints of the parser.
The tokens and the errors of a text lie one behind the other, and a complaint is about a token, so
no two problems are at one place; sorting by place then leaves the errors of the scanner in their
order. Main result: what is in the report of a rejected text (`Query.report_of_ofText`).
-/

set_option autoImplicit false

namespace FilterQuery

/-- The error of the scanner that the problem is, if it is one. -/
def Problem.lexical? : Problem → Option LexError
  | .lexical e => some e
  | .grammatical _ => none

/-- The errors of the scanner in a report, in its order. -/
def Report.lexical (r : Report) : List LexError := r.problems.filterMap Problem.lexical?

/-! ## Places in a text -/

namespace Scan

/-- No two of the tokens and errors of a text start at one place. -/
theorem apart (s : String) :
    ((tokens s).map Token.span ++ (errors s).map LexError.span).Pairwise
      fun x y => x.offset ≠ y.offset :=
  (spans_perm s).symm.pairwise ((increasing_pieceSpans s).imp Nat.ne_of_lt) Ne.symm

theorem offset_ne_of_mem {s : String} {t : Token} {e : LexError} (ht : t ∈ tokens s)
    (he : e ∈ errors s) : t.offset ≠ e.offset := by
  obtain ⟨-, -, hcross⟩ := List.pairwise_append.mp (apart s)
  exact hcross _ (List.mem_map_of_mem ht) _ (List.mem_map_of_mem he)

theorem increasing_errors (s : String) :
    (errors s).Pairwise fun e f => e.offset < f.offset := by
  have herrors : ((errors s).map LexError.span).Sublist ((pieces .start s.toList).map Piece.span) :=
    sublist_spans (fun piece e he => by cases piece <;> cases he; rfl) _
  have hpieces := herrors.trans (List.sublist_append_left _ [Span.mk s.utf8ByteSize ""])
  have hspans := (increasing_pieceSpans s).sublist hpieces
  rw [List.pairwise_map] at hspans
  exact hspans

end Scan

/-! ## Merged reports -/

namespace Report

theorem merge_perm (a b : Report) : (a.merge b).problems.Perm (a.problems ++ b.problems) :=
  List.mergeSort_perm _ _

/-- Problems at places of their own are merged in the order of their places. -/
theorem increasing_merge {a b : Report}
    (h : (a.problems ++ b.problems).Pairwise fun p q => p.offset ≠ q.offset) :
    (a.merge b).problems.Pairwise fun p q => p.offset < q.offset := by
  have hsorted : (a.merge b).problems.Pairwise fun p q => p.offset ≤ q.offset :=
    Scan.pairwise_mergeSort_key Problem.offset _
  have hapart : (a.merge b).problems.Pairwise fun p q => p.offset ≠ q.offset :=
    (merge_perm a b).symm.pairwise h Ne.symm
  exact hsorted.imp₂ (fun _ _ => Nat.lt_of_le_of_ne) hapart

/-- Errors of the scanner that are merged with complaints of the parser are all there. -/
theorem lexical_merge_perm (es : List LexError) {b : Report}
    (hb : ∀ p ∈ b.problems, p.lexical? = none) :
    ((ofList (es.map .lexical)).merge b).lexical.Perm es := by
  have hperm := (merge_perm (ofList (es.map .lexical)) b).filterMap Problem.lexical?
  have hes : (es.map Problem.lexical).filterMap Problem.lexical? = es := by
    rw [List.filterMap_map]
    exact List.filterMap_some
  have hnone : b.problems.filterMap Problem.lexical? = [] := List.filterMap_eq_nil_iff.mpr hb
  rw [List.filterMap_append, hnone, List.append_nil] at hperm
  exact hperm.trans (.of_eq hes)

theorem increasing_lexical {r : Report}
    (h : r.problems.Pairwise fun p q => p.offset < q.offset) :
    r.lexical.Pairwise fun e f => e.offset < f.offset := by
  refine h.filterMap _ fun p q hpq e he f hf => ?_
  cases p with
  | grammatical => cases he
  | lexical =>
      cases q with
      | grammatical => cases hf
      | lexical =>
          cases he
          cases hf
          exact hpq

end Report

/-! ## Rejected texts -/

namespace Query

/-- A complaint of the parser about a text is about one of its tokens. -/
theorem complaints_of_text (s : String) :
    (∀ p ∈ (Tree.parse (Scan.tokens s)).2.problems, ∃ t ∈ Scan.tokens s, ∃ message,
        p = .grammatical (.atToken t message)) ∧
      (Tree.parse (Scan.tokens s)).2.problems.Pairwise fun p q => p.offset ≠ q.offset :=
  Parser.tracks_parse ⟨_, Scan.mem_tokens_iff.mpr (.inr rfl), rfl⟩

/-- The problems of a text are at places of their own. -/
theorem increasing_problems (s : String) :
    (problems s).problems.Pairwise fun p q => p.offset < q.offset := by
  obtain ⟨hcomplaints, hapart⟩ := complaints_of_text s
  refine Report.increasing_merge (List.pairwise_append.mpr ⟨?_, hapart, ?_⟩)
  · exact List.pairwise_map.mpr ((Scan.increasing_errors s).imp Nat.ne_of_lt)
  · intro p hp q hq
    obtain ⟨e, he, rfl⟩ := List.mem_map.mp hp
    obtain ⟨t, ht, message, rfl⟩ := hcomplaints q hq
    exact (Scan.offset_ne_of_mem ht he).symm

theorem lexical_problems (s : String) : (problems s).lexical = Scan.errors s := by
  have hperm : (problems s).lexical.Perm (Scan.errors s) := by
    refine Report.lexical_merge_perm _ fun p hp => ?_
    obtain ⟨t, -, message, rfl⟩ := (complaints_of_text s).1 p hp
    rfl
  -- both lists are the one in which the offsets increase
  have hreport := Scan.mergeSort_eq_of_perm LexError.offset (.refl _)
    (Report.increasing_lexical (increasing_problems s))
  exact hreport.symm.trans
    (Scan.mergeSort_eq_of_perm LexError.offset hperm (Scan.increasing_errors s))

theorem token_of_grammatical {s : String} {e : SyntaxError}
    (he : .grammatical e ∈ (problems s).problems) :
    ∃ t ∈ Scan.tokens s, e.toPosition = t.toPosition ∧ e.found = t.lexeme := by
  rcases List.mem_append.mp ((Report.merge_perm _ _).subset he) with hlexical | hcomplaint
  · obtain ⟨f, -, hf⟩ := List.mem_map.mp hlexical
    cases hf
  · obtain ⟨t, ht, message, heq⟩ := (complaints_of_text s).1 _ hcomplaint
    cases heq
    exact ⟨t, ht, rfl, rfl⟩

/-- Only a text with problems is rejected. -/
theorem eq_rejected_of_ofText {s : String} {e : QueryError} (h : ofText s = .error e) :
    e = .rejected (problems s) ∧ (problems s).problems ≠ [] := by
  unfold ofText at h
  split at h
  · cases h
  split at h
  · next hempty =>
      obtain ⟨q, hq⟩ := Tree.exists_ofTree_parse (Report.isEmpty_of_merge hempty)
      rw [hq] at h
      cases h
  · next hproblems =>
      cases h
      exact ⟨rfl, fun hnil => hproblems (List.isEmpty_iff.mpr hnil)⟩

/-- **What is in the report of a rejected text.** There is a problem; the places of the problems
increase; the errors of the scanner are all there, each once and in order; and every other problem
stands at a token of the text, maybe the end mark, and shows its lexeme. -/
theorem report_of_ofText {s : String} {e : QueryError} (h : ofText s = .error e) :
    ∃ r, e = .rejected r ∧ r.problems ≠ [] ∧
      (r.problems.Pairwise fun p q => p.offset < q.offset) ∧ r.lexical = Scan.errors s ∧
      ∀ e, .grammatical e ∈ r.problems →
        ∃ t ∈ Scan.tokens s, e.toPosition = t.toPosition ∧ e.found = t.lexeme := by
  obtain ⟨rfl, hne⟩ := eq_rejected_of_ofText h
  exact ⟨problems s, rfl, hne, increasing_problems s, lexical_problems s,
    fun e he => token_of_grammatical he⟩

/-- A text with errors of both sorts: the scanner does not read the mark, and the parser misses a
value before the word behind it and at the end. -/
def brokenText : String := "a = # AND b ="

theorem report_of_ofText_brokenText :
    ofText brokenText = .error (.rejected (problems brokenText)) ∧
      (problems brokenText).lexical = [.unrecognized "#" ⟨4, 1, 5⟩] := by
  have hblank : ¬Text.isBlankText brokenText := by decide +kernel
  have hcomplaints : ¬(Tree.parse (Scan.tokens brokenText)).2.isEmpty := by decide +kernel
  have hproblems : ¬(problems brokenText).isEmpty :=
    fun hempty => hcomplaints (Report.isEmpty_of_merge hempty)
  have h : ofText brokenText = .error (.rejected (problems brokenText)) := by
    unfold ofText
    rw [if_neg hblank, if_neg hproblems]
  obtain ⟨r, hr, -, -, hlexical, -⟩ := report_of_ofText h
  cases hr
  exact ⟨h, hlexical.trans (by decide +kernel)⟩

end Query

end FilterQuery
