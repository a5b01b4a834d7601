import FilterQuery.Proofs.Token.Cut
import Mathlib.Data.List.Pairwise
import Mathlib.Data.List.Sort

/-!
# The scanner loses nothing

The tokens and the errors of a text, in the order of their offsets, are the `Scan.spans` of the
text. Main result: they tile the text (`spans_tile`). Each of them is the part of the text that
starts at its offset, they lie one behind the other, and only white space is left between them.
-/

set_option autoImplicit false

namespace FilterQuery

/-! ## Spans -/

/-- A part of a text and the byte offset where it starts. -/
structure Span where
  offset : Nat
  text : String
  deriving DecidableEq, Repr

namespace Span

/-- The offset behind the last byte. -/
def stop (x : Span) : Nat := x.offset + x.text.utf8ByteSize

/-- The span holds the byte at an offset. -/
def Covers (x : Span) (i : Nat) : Prop := x.offset ≤ i ∧ i < x.stop

end Span

/-- The lexeme of a token at its offset. -/
def Token.span (t : Token) : Span := ⟨t.offset, t.lexeme⟩

/-- The text of an error. -/
def LexError.text : LexError → String
  | .unrecognized text _ => text
  | .failure text _ => text

/-- The text of an error at its offset. -/
def LexError.span (e : LexError) : Span := ⟨e.offset, e.text⟩

/-- The spans lie in the text one behind the other, and every byte that none of them holds is a
space, a tab, a carriage return or a line feed. -/
structure Tiles (s : String) (xs : List Span) : Prop where
  increasing : xs.Pairwise fun x y => x.offset < y.offset
  disjoint : xs.Pairwise fun x y => x.stop ≤ y.offset
  slice : ∀ x ∈ xs, ∃ before after, s = before ++ x.text ++ after ∧
    before.utf8ByteSize = x.offset
  covered : ∀ i < s.utf8ByteSize, (∃ x ∈ xs, x.Covers i) ∨
    ∃ before c after, s = before ++ String.singleton c ++ after ∧ before.utf8ByteSize = i ∧
      c ∈ [' ', '\t', '\r', '\n']

namespace Scan

def Piece.span : Piece → Span
  | .token t => t.span
  | .unread e => e.span

/-- The tokens and the errors of a text, in the order of their offsets. -/
def spans (s : String) : List Span :=
  ((tokens s).map Token.span ++ (errors s).map LexError.span).mergeSort
    fun x y => x.offset ≤ y.offset

/-! ## The spans of a cut -/

theorem Takes.span_eq {p : Position} {text rest : List Char} {piece : Piece}
    (h : Takes p text rest piece) : piece.span = ⟨p.offset, String.ofList text⟩ := by
  cases h with
  | token => rfl
  | unread => rfl

theorem Takes.span_stop {p : Position} {text rest : List Char} {piece : Piece}
    (h : Takes p text rest piece) : piece.span.stop = (p.after text).offset := by
  rw [h.span_eq, Span.stop, utf8ByteSize_ofList, Position.offset_after]

theorem isSpace_iff (c : Char) : isSpace c = true ↔ c ∈ [' ', '\t', '\r', '\n'] := by
  simp [isSpace, or_assoc]

theorem utf8Size_of_isSpace {c : Char} (h : isSpace c = true) : c.utf8Size = 1 := by
  simp only [isSpace, Bool.or_eq_true, beq_iff_eq] at h
  rcases h with ((rfl | rfl) | rfl) | rfl
  · rfl
  · rfl
  · rfl
  · rfl

/-- Every piece is a part of the text at its offset, and not an empty one. -/
theorem Cut.slice {p : Position} {cs : List Char} {ps : List Piece} (h : Cut p cs ps) :
    ∀ x ∈ ps.map Piece.span, x.text ≠ "" ∧ ∃ before after,
      cs = before ++ x.text.toList ++ after ∧ x.offset = p.offset + byteSize before := by
  induction h with
  | done p => nofun
  | @space p c rest ps hspace tail ih =>
      intro x hx
      obtain ⟨hne, before, after, rfl, hoffset⟩ := ih x hx
      refine ⟨hne, c :: before, after, rfl, ?_⟩
      rw [hoffset, Position.offset_step, byteSize_cons]
      omega
  | @piece p text rest piece ps htakes tail ih =>
      intro x hx
      rcases List.mem_cons.mp hx with rfl | hx
      · rw [htakes.span_eq]
        refine ⟨by simpa using htakes.ne_nil, [], rest, by simp, by simp⟩
      · obtain ⟨hne, before, after, rfl, hoffset⟩ := ih x hx
        refine ⟨hne, text ++ before, after, by simp, ?_⟩
        rw [hoffset, Position.offset_after, byteSize_append]
        omega

/-- The first piece ends before the next one starts. -/
theorem Cut.disjoint {p : Position} {cs : List Char} {ps : List Piece} (h : Cut p cs ps) :
    (ps.map Piece.span).Pairwise fun x y => x.stop ≤ y.offset := by
  induction h with
  | done p => exact .nil
  | space _ _ ih => exact ih
  | @piece p text rest piece ps htakes tail ih =>
      refine List.pairwise_cons.mpr ⟨fun y hy => ?_, ih⟩
      obtain ⟨-, before, after, -, hoffset⟩ := tail.slice y hy
      rw [htakes.span_stop, hoffset]
      omega

/-- What no piece covers is white space. -/
theorem Cut.covered {p : Position} {cs : List Char} {ps : List Piece} (h : Cut p cs ps) {i : Nat}
    (hi : i < byteSize cs) : (∃ x ∈ ps.map Piece.span, x.Covers (p.offset + i)) ∨
      ∃ before c after, cs = before ++ c :: after ∧ byteSize before = i ∧ isSpace c = true := by
  induction h generalizing i with
  | done p => cases hi
  | @space p c rest ps hspace tail ih =>
      -- a white space character is one byte: this one, or the byte lies behind it
      have hsize := utf8Size_of_isSpace hspace
      rw [byteSize_cons, hsize] at hi
      cases i with
      | zero => exact .inr ⟨[], c, rest, rfl, rfl, hspace⟩
      | succ i =>
          have hoffset : (p.step c).offset + i = p.offset + (i + 1) := by
            rw [Position.offset_step, hsize]
            omega
          rcases ih (i := i) (by omega) with hcovers | ⟨before, d, after, rfl, hbefore, hd⟩
          · exact .inl (hoffset ▸ hcovers)
          · refine .inr ⟨c :: before, d, after, rfl, ?_, hd⟩
            rw [byteSize_cons, hsize, hbefore]
            omega
  | @piece p text rest piece ps htakes tail ih =>
      rw [byteSize_append] at hi
      by_cases hlt : i < byteSize text
      · refine .inl ⟨piece.span, List.mem_cons_self, ?_⟩
        have hstart : piece.span.offset = p.offset := congrArg Span.offset htakes.span_eq
        rw [Span.Covers, htakes.span_stop, hstart, Position.offset_after]
        omega
      · have hoffset : (p.after text).offset + (i - byteSize text) = p.offset + i := by
          rw [Position.offset_after]
          omega
        rcases ih (i := i - byteSize text) (by omega) with
          ⟨x, hx, hcovers⟩ | ⟨before, d, after, rfl, hbefore, hd⟩
        · exact .inl ⟨x, List.mem_cons_of_mem _ hx, hoffset ▸ hcovers⟩
        · refine .inr ⟨text ++ before, d, after, by simp, ?_, hd⟩
          rw [byteSize_append, hbefore]
          omega

/-! ## Both lists together -/

theorem le_key_trans {α : Type} (key : α → Nat) (x y z : α) (hxy : decide (key x ≤ key y) = true)
    (hyz : decide (key y ≤ key z) = true) : decide (key x ≤ key z) = true := by
  simp only [decide_eq_true_eq] at hxy hyz ⊢
  omega

theorem le_key_total {α : Type} (key : α → Nat) (x y : α) :
    (decide (key x ≤ key y) || decide (key y ≤ key x)) = true := by
  simp only [Bool.or_eq_true, decide_eq_true_eq]
  omega

theorem pairwise_mergeSort_key {α : Type} (key : α → Nat) (xs : List α) :
    (xs.mergeSort fun x y => key x ≤ key y).Pairwise fun x y => key x ≤ key y := by
  have hsorted : (xs.mergeSort fun x y => key x ≤ key y).Pairwise
      fun x y => decide (key x ≤ key y) = true := by
    exact List.pairwise_mergeSort (le_key_trans key) (le_key_total key) xs
  simpa only [decide_eq_true_eq] using hsorted

/-- A list whose keys increase is what sorting by the keys gives. -/
theorem mergeSort_eq_of_perm {α : Type} (key : α → Nat) {xs ys : List α} (hperm : xs.Perm ys)
    (hys : ys.Pairwise fun x y => key x < key y) :
    (xs.mergeSort fun x y => key x ≤ key y) = ys := by
  have hsymm : Std.Symm fun x y => key x ≠ key y := ⟨fun _ _ => Ne.symm⟩
  -- no key occurs twice, so two sorted lists of the same items are one
  have hne : ys.Pairwise fun x y => key x ≠ key y := hys.imp Nat.ne_of_lt
  have hsorted := pairwise_mergeSort_key key xs
  have hperm' := (xs.mergeSort_perm fun x y => key x ≤ key y).trans hperm
  refine hperm'.eq_of_pairwise ?_ hsorted (hys.imp Nat.le_of_lt)
  intro x y hx hy hxy hyx
  by_contra hxy'
  exact hne.forall (hperm'.subset hx) hy hxy' (Nat.le_antisymm hxy hyx)

theorem offset_end (s : String) : (Position.start.after s.toList).offset = s.utf8ByteSize := by
  rw [Position.offset_after, byteSize_toList]
  exact Nat.zero_add _

/-- The end mark stands behind the last byte. -/
theorem span_eof (s : String) :
    (Token.eof (Position.start.after s.toList)).span = ⟨s.utf8ByteSize, ""⟩ := by
  rw [← offset_end]
  rfl

/-- The spans of the pieces, with the end of the text behind them. -/
def pieceSpans (s : String) : List Span :=
  (pieces .start s.toList).map Piece.span ++ [⟨s.utf8ByteSize, ""⟩]

theorem spans_perm (s : String) :
    ((tokens s).map Token.span ++ (errors s).map LexError.span).Perm (pieceSpans s) := by
  -- every piece is in exactly one of the two lists
  have hpieces : ∀ ps : List Piece,
      ((ps.filterMap Piece.token?).map Token.span ++
        (ps.filterMap Piece.error?).map LexError.span).Perm (ps.map Piece.span) := by
    intro ps
    induction ps with
    | nil => exact .nil
    | cons piece ps ih =>
        cases piece with
        | token t => exact ih.cons _
        | unread e => exact List.perm_middle.trans (ih.cons _)
  rw [tokens, errors, List.map_append, List.append_assoc, List.map_singleton, span_eof]
  refine (List.Perm.append_left _ List.perm_append_comm).trans ?_
  rw [← List.append_assoc]
  exact (hpieces _).append_right _

/-- One piece after the other, none of them empty, and the end of the text behind the last. -/
theorem Cut.pairwise {p : Position} {cs : List Char} {ps : List Piece} (h : Cut p cs ps) :
    (ps.map Piece.span ++ [Span.mk (p.after cs).offset ""]).Pairwise
      fun x y => x.text ≠ "" ∧ x.stop ≤ y.offset := by
  refine List.pairwise_append.mpr ⟨?_, List.pairwise_singleton _ _, ?_⟩
  · exact h.disjoint.imp_of_mem fun hx _ hstop => ⟨(h.slice _ hx).1, hstop⟩
  · -- the bytes before a piece and those of the piece are no more than all bytes
    intro x hx y hy
    obtain ⟨hne, before, after, hslice, hoffset⟩ := h.slice x hx
    obtain rfl := List.mem_singleton.mp hy
    refine ⟨hne, ?_⟩
    have hsize := congrArg byteSize hslice
    simp only [byteSize_append, byteSize_toList] at hsize
    show x.stop ≤ (p.after cs).offset
    rw [Span.stop, hoffset, Position.offset_after]
    omega

theorem pairwise_pieceSpans (s : String) :
    (pieceSpans s).Pairwise fun x y => x.text ≠ "" ∧ x.stop ≤ y.offset := by
  have hpairwise := (cut_pieces .start s.toList).pairwise
  rwa [offset_end] at hpairwise

theorem offset_lt_stop {x : Span} (h : x.text ≠ "") : x.offset < x.stop := by
  have hpos : 0 < x.text.utf8ByteSize :=
    Nat.pos_of_ne_zero fun hzero => h (String.utf8ByteSize_eq_zero_iff.mp hzero)
  rw [Span.stop]
  omega

theorem Cut.increasing {p : Position} {cs : List Char} {ps : List Piece} (h : Cut p cs ps) :
    (ps.map Piece.span ++ [Span.mk (p.after cs).offset ""]).Pairwise
      fun x y => x.offset < y.offset :=
  h.pairwise.imp fun ⟨hne, hstop⟩ => (offset_lt_stop hne).trans_le hstop

theorem increasing_pieceSpans (s : String) :
    (pieceSpans s).Pairwise fun x y => x.offset < y.offset := by
  have hincreasing := (cut_pieces .start s.toList).increasing
  rwa [offset_end] at hincreasing

/-- The spans of some of the pieces are among those of all, in their order. -/
theorem sublist_spans {α : Type} {part : Piece → Option α} {span : α → Span}
    (h : ∀ piece, ∀ x ∈ part piece, span x = piece.span) (ps : List Piece) :
    ((ps.filterMap part).map span).Sublist (ps.map Piece.span) := by
  induction ps with
  | nil => exact .slnil
  | cons piece ps ih =>
      cases hpart : part piece with
      | none =>
          rw [List.filterMap_cons_none hpart]
          exact ih.cons _
      | some x =>
          rw [List.filterMap_cons_some hpart, List.map_cons, h piece x hpart]
          exact ih.cons_cons _

theorem spans_eq (s : String) : spans s = pieceSpans s :=
  mergeSort_eq_of_perm Span.offset (spans_perm s) (increasing_pieceSpans s)

theorem slice_of_mem_pieceSpans {s : String} {x : Span} (hx : x ∈ pieceSpans s) :
    ∃ before after, s = before ++ x.text ++ after ∧ before.utf8ByteSize = x.offset := by
  rcases List.mem_append.mp hx with hx | hx
  · obtain ⟨-, before, after, hslice, hoffset⟩ := (cut_pieces .start s.toList).slice x hx
    refine ⟨String.ofList before, String.ofList after, String.toList_inj.mp ?_, ?_⟩
    · simpa using hslice
    · rw [utf8ByteSize_ofList, hoffset]
      exact (Nat.zero_add _).symm
  · obtain rfl := List.mem_singleton.mp hx
    exact ⟨s, "", by simp, rfl⟩

theorem covered_by_pieceSpans {s : String} {i : Nat} (hi : i < s.utf8ByteSize) :
    (∃ x ∈ pieceSpans s, x.Covers i) ∨ ∃ before c after,
      s = before ++ String.singleton c ++ after ∧ before.utf8ByteSize = i ∧
        c ∈ [' ', '\t', '\r', '\n'] := by
  have hstart : Position.start.offset + i = i := Nat.zero_add i
  rcases (cut_pieces .start s.toList).covered (i := i) (by simpa using hi) with
    ⟨x, hx, hcovers⟩ | ⟨before, c, after, hslice, hsize, hspace⟩
  · exact .inl ⟨x, List.mem_append_left _ hx, hstart ▸ hcovers⟩
  · refine .inr ⟨String.ofList before, c, String.ofList after, String.toList_inj.mp ?_, ?_,
      (isSpace_iff c).mp hspace⟩
    · simpa using hslice
    · rw [utf8ByteSize_ofList, hsize]

/-- **The scanner loses nothing.** The tokens and the errors of a text tile it. None of them is
empty but the end mark, which is the last token and stands behind the last byte. -/
theorem spans_tile (s : String) :
    Tiles s (spans s) ∧
      (∀ t ∈ tokens s, t.kind ≠ .eof → t.lexeme ≠ "") ∧ (∀ e ∈ errors s, e.text ≠ "") ∧
      ∃ ts e, tokens s = ts ++ [e] ∧ (∀ t ∈ ts, t.kind ≠ .eof) ∧
        e.kind = .eof ∧ e.lexeme = "" ∧ e.offset = s.utf8ByteSize := by
  have hcut := cut_pieces .start s.toList
  refine ⟨⟨?_, ?_, ?_, ?_⟩, ?_, ?_, ?_⟩
  · rw [spans_eq]
    exact increasing_pieceSpans s
  · rw [spans_eq]
    exact (pairwise_pieceSpans s).imp And.right
  · rw [spans_eq]
    exact fun x hx => slice_of_mem_pieceSpans hx
  · rw [spans_eq]
    exact fun i hi => covered_by_pieceSpans hi
  · intro t ht hk
    rcases mem_tokens_iff.mp ht with ht | rfl
    · exact (hcut.slice t.span (List.mem_map_of_mem ht)).1
    · exact absurd rfl hk
  · intro e he
    exact (hcut.slice e.span (List.mem_map_of_mem (mem_errors_iff.mp he))).1
  · refine ⟨_, _, rfl, fun t ht => ?_, rfl, rfl, congrArg Span.offset (span_eof s)⟩
    have hlexeme := hcut.isLexeme (mem_filterMap_token?_iff.mp ht)
    intro hk
    rw [hk] at hlexeme
    exact hlexeme

end Scan

end FilterQuery
