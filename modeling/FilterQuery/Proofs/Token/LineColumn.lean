import FilterQuery.Proofs.Token.Moved
import FilterQuery.Proofs.Token.Munch
import Mathlib.Data.List.DropRight
import Mathlib.Data.List.Induction

/-!
# Lines and columns

Line and column of a place are a matter of the text before it. They can be counted
(`Text.countedEnd`: the line feeds, and the characters behind the last of them) or found by walking
through the text (`Text.walkedEnd`), for which a carriage return and a line feed together are one
newline. Both give what the scanner keeps while it goes on, one character at a time
(`Position.after`). Main result: every token and every error has the line and the column of its
offset, and these increase from token to token (`positions_counted`).
-/

set_option autoImplicit false

namespace FilterQuery

/-! ## Where a text ends -/

namespace Text

/-- The characters behind the last line feed. -/
def lastLine (cs : List Char) : List Char := cs.rtakeWhile (· ≠ '\n')

/-- The line and the column where a text ends, by counting. -/
def countedEnd (cs : List Char) : Nat × Nat := (1 + cs.count '\n', 1 + (lastLine cs).length)

/-- The line and the column where a text ends that starts at a given line and column. A line feed,
with or without a carriage return in front of it, is a newline; any other carriage return is a
character like the others. -/
def walkedEnd : Nat × Nat → List Char → Nat × Nat
  | place, [] => place
  | (line, _), '\r' :: '\n' :: cs => walkedEnd (line + 1, 1) cs
  | (line, _), '\n' :: cs => walkedEnd (line + 1, 1) cs
  | (line, column), _ :: cs => walkedEnd (line, column + 1) cs

theorem countedEnd_concat (cs : List Char) (c : Char) :
    countedEnd (cs ++ [c]) =
      if c = '\n' then ((countedEnd cs).1 + 1, 1)
      else ((countedEnd cs).1, (countedEnd cs).2 + 1) := by
  by_cases hc : c = '\n'
  · subst hc
    have hline : lastLine (cs ++ ['\n']) = [] := List.rtakeWhile_concat_neg _ _ _ (by simp)
    rw [if_pos rfl, countedEnd, hline, List.count_append]
    rfl
  · have hline : lastLine (cs ++ [c]) = lastLine cs ++ [c] :=
      List.rtakeWhile_concat_pos _ _ _ (by simpa using hc)
    rw [if_neg hc, countedEnd, hline, List.count_append, List.count_singleton, List.length_append]
    simp [countedEnd, hc, Nat.add_assoc]

/-- A longer text ends on a later line, or on the same line in a later column. -/
theorem countedEnd_lt (cs : List Char) {ds : List Char} (hds : ds ≠ []) :
    (countedEnd cs).1 < (countedEnd (cs ++ ds)).1 ∨
      (countedEnd cs).1 = (countedEnd (cs ++ ds)).1 ∧
        (countedEnd cs).2 < (countedEnd (cs ++ ds)).2 := by
  induction ds using List.reverseRecOn with
  | nil => exact absurd rfl hds
  | append_singleton ds d ih =>
      rw [← List.append_assoc, countedEnd_concat]
      rcases eq_or_ne ds [] with rfl | hds
      · rw [List.append_nil]
        split
        · exact .inl (Nat.lt_succ_self _)
        · exact .inr ⟨rfl, Nat.lt_succ_self _⟩
      · have hlt := ih hds
        split
        · left
          dsimp only
          omega
        · dsimp only
          omega

end Text

namespace Position

/-- The line and the column of a place. -/
def lineColumn (p : Position) : Nat × Nat := (p.line, p.column)

theorem lineColumn_step (p : Position) (c : Char) :
    (p.step c).lineColumn = if c = '\n' then (p.line + 1, 1) else (p.line, p.column + 1) := by
  unfold step
  split <;> rfl

/-- The scanner counts. -/
theorem lineColumn_start_after (cs : List Char) :
    (start.after cs).lineColumn = Text.countedEnd cs := by
  induction cs using List.reverseRecOn with
  | nil => rfl
  | append_singleton cs c ih =>
      rw [after_append, after_cons, after_nil, lineColumn_step, Text.countedEnd_concat, ← ih]
      rfl

/-- The scanner walks, from every place. -/
theorem walkedEnd_lineColumn (p : Position) (cs : List Char) :
    Text.walkedEnd p.lineColumn cs = (p.after cs).lineColumn := by
  generalize hplace : p.lineColumn = place
  fun_induction Text.walkedEnd place cs generalizing p with
  | case1 place => rw [after_nil, hplace]
  | case2 line column cs ih =>
      -- the column that the carriage return has is given up at the line feed
      obtain ⟨rfl, rfl⟩ := Prod.mk.inj hplace
      refine ih ((p.step '\r').step '\n') ?_
      rw [lineColumn_step, if_pos rfl]
      have hreturn := lineColumn_step p '\r'
      rw [if_neg (by decide)] at hreturn
      rw [(Prod.mk.inj hreturn).1]
  | case3 line column cs ih =>
      obtain ⟨rfl, rfl⟩ := Prod.mk.inj hplace
      refine ih (p.step '\n') ?_
      rw [lineColumn_step, if_pos rfl]
  | case4 line column c cs hreturn hfeed ih =>
      obtain ⟨rfl, rfl⟩ := Prod.mk.inj hplace
      refine ih (p.step c) ?_
      rw [lineColumn_step, if_neg hfeed]

example : Text.walkedEnd (1, 1) "a\r\n\ré".toList = (2, 3) := by decide

/-- The place is in the text, with the line and the column of the part before it. -/
def CountedIn (s : String) (p : Position) : Prop :=
  ∃ before after, s = before ++ after ∧ before.utf8ByteSize = p.offset ∧
    p.lineColumn = Text.countedEnd before.toList

/-- The line is an earlier one, or it is the same and the column an earlier one. -/
def Precedes (p q : Position) : Prop :=
  p.line < q.line ∨ p.line = q.line ∧ p.column < q.column

theorem countedIn_after {s : String} {before rest : List Char} (hs : s.toList = before ++ rest) :
    (start.after before).CountedIn s := by
  refine ⟨String.ofList before, String.ofList rest, String.toList_inj.mp ?_, ?_, ?_⟩
  · simpa using hs
  · rw [utf8ByteSize_ofList, offset_after]
    exact (Nat.zero_add _).symm
  · rw [String.toList_ofList, lineColumn_start_after]

/-- Of two places in a text, the one with the smaller offset comes first. -/
theorem CountedIn.precedes {s : String} {p q : Position} (hp : p.CountedIn s) (hq : q.CountedIn s)
    (hlt : p.offset < q.offset) : p.Precedes q := by
  obtain ⟨before, after, rfl, hbefore, hplace⟩ := hp
  obtain ⟨before', after', hs, hbefore', hplace'⟩ := hq
  rw [← hbefore, ← hbefore', ← byteSize_toList, ← byteSize_toList] at hlt
  have happend := congrArg String.toList hs
  rw [String.toList_append, String.toList_append] at happend
  rcases List.append_eq_append_iff.mp happend with ⟨between, hmore, -⟩ | ⟨between, hless, -⟩
  · have hne : between ≠ [] := by
      rintro rfl
      rw [hmore, List.append_nil] at hlt
      exact absurd hlt (Nat.lt_irrefl _)
    have hends := Text.countedEnd_lt before.toList hne
    rw [← hmore, ← hplace, ← hplace'] at hends
    exact hends
  · rw [hless, byteSize_append] at hlt
    omega

end Position

namespace Scan

/-! ## Places of tokens and errors -/

/-- Where a piece starts. -/
def Piece.place : Piece → Position
  | .token t => t.toPosition
  | .unread e => e.place

theorem Takes.place_eq {p : Position} {text rest : List Char} {piece : Piece}
    (h : Takes p text rest piece) : piece.place = p := by
  cases h with
  | token => rfl
  | unread => rfl

theorem countedIn_of_mem_pieces {s : String} {piece : Piece}
    (h : piece ∈ pieces .start s.toList) : piece.place.CountedIn s := by
  obtain ⟨before, text, rest, hs, htakes⟩ := (cut_pieces .start s.toList).takes h
  rw [htakes.place_eq]
  exact Position.countedIn_after hs

theorem countedIn_of_mem_tokens {s : String} {t : Token} (ht : t ∈ tokens s) :
    t.toPosition.CountedIn s := by
  rcases mem_tokens_iff.mp ht with ht | rfl
  · exact countedIn_of_mem_pieces ht
  · exact Position.countedIn_after (List.append_nil _).symm

/-- **Every token and every error has the line and the column of its offset**, the token that marks
the end too. They can be counted or walked to, and they increase from token to token. -/
theorem positions_counted (s : String) :
    (∀ t ∈ tokens s, t.toPosition.CountedIn s) ∧ (∀ e ∈ errors s, e.place.CountedIn s) ∧
      (∀ cs, Text.walkedEnd (1, 1) cs = Text.countedEnd cs) ∧
      (tokens s).Pairwise fun t u => t.toPosition.Precedes u.toPosition := by
  refine ⟨fun t ht => countedIn_of_mem_tokens ht,
    fun e he => countedIn_of_mem_pieces (mem_errors_iff.mp he), fun cs => ?_, ?_⟩
  · calc Text.walkedEnd (1, 1) cs
      _ = (Position.start.after cs).lineColumn := Position.walkedEnd_lineColumn .start cs
      _ = Text.countedEnd cs := Position.lineColumn_start_after cs
  · refine (increasing_tokens s).imp_of_mem fun ht hu hlt => ?_
    exact (countedIn_of_mem_tokens ht).precedes (countedIn_of_mem_tokens hu) hlt

end Scan

end FilterQuery
