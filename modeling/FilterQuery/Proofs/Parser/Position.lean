import FilterQuery.Proofs.Parser.Run
import Mathlib.Order.Bounds.Defs

/-!
# Positions

A parser stands at a position of the tokens that it reads (`State.StandsAt`): what is left are the
tokens from there to the next end mark. The token at hand is the one at that position, and going on
means standing further back.

The tokens it reads are `marked`: those that it is given, with an end mark made up where they do not
end in one. It starts at their first position (`standsAt_ofTokens`), and each of their positions is
the place of some parser (`standsAt_of_lt`).
-/

set_option autoImplicit false

namespace FilterQuery.Parser

/-- A token of the kind is at the position. -/
def KindAt (ts : List Token) (i : Nat) (k : Kind) : Prop := ts[i]?.map (·.kind) = some k

/-- The tokens, with an end mark made up where they do not end in one. -/
def marked (ts : List Token) : List Token :=
  if ts.getLast?.map (·.kind) = some .eof then ts else ts ++ [endAfter ts]

/-- The parser stands at a position of some tokens: from there on they are those that are left, the
end mark, and what may be behind it. -/
structure State.StandsAt (s : State) (ts : List Token) (i : Nat) : Prop extends s.Sane where
  tokens : ∃ more, ts.drop i = s.rest ++ s.stop :: more

namespace State.StandsAt

variable {s t : State} {ts : List Token} {i j : Nat}

theorem getElem?_add (h : s.StandsAt ts i) (hj : j ≤ s.rest.length) :
    ts[i + j]? = (s.rest ++ [s.stop])[j]? := by
  obtain ⟨more, hmore⟩ := h.tokens
  have hlength : (s.rest ++ [s.stop]).length = s.rest.length + 1 := by simp
  rw [← List.getElem?_drop, hmore, List.append_cons, List.getElem?_append_left (by omega)]

/-- The tokens from the position on, as far as some of those that are left. -/
theorem extract_eq (h : s.StandsAt ts i) (hj : j ≤ s.rest.length) :
    ts.extract i (i + j) = s.rest.take j := by
  obtain ⟨more, hmore⟩ := h.tokens
  rw [List.extract_eq_take_drop, hmore, Nat.add_sub_cancel_left,
    List.take_append_of_le_length hj]

/-- Where fewer tokens are left, the parser stands further back. -/
theorem later (h : s.StandsAt ts i) (hrest : t.rest <:+ s.rest) (hstop : t.stop = s.stop) :
    t.StandsAt ts (i + (s.rest.length - t.rest.length)) := by
  obtain ⟨more, hmore⟩ := h.tokens
  obtain ⟨front, hfront⟩ := hrest
  have hlength : s.rest.length - t.rest.length = front.length := by
    rw [← hfront, List.length_append]
    omega
  refine ⟨⟨hstop ▸ h.stop, fun u hu => h.rest u ?_⟩, more, ?_⟩
  · rw [← hfront]
    exact List.mem_append_right _ hu
  · rw [hlength, hstop, ← List.drop_drop, hmore, ← hfront, List.append_assoc, List.drop_left]

/-- The end mark is at the first position from there on at which there is one. -/
theorem isLeast_end (h : s.StandsAt ts i) :
    IsLeast { k | i ≤ k ∧ KindAt ts k .eof } (i + s.rest.length) := by
  constructor
  · refine ⟨Nat.le_add_right _ _, ?_⟩
    have hstop := h.getElem?_add (Nat.le_refl _)
    rw [List.getElem?_concat_length] at hstop
    rw [KindAt, hstop]
    exact congrArg some h.stop
  · rintro k ⟨hik, heof⟩
    by_contra hlt
    obtain ⟨j, rfl⟩ := Nat.exists_eq_add_of_le hik
    have hj : j < s.rest.length := by omega
    rw [KindAt, h.getElem?_add (Nat.le_of_lt hj), List.getElem?_append_left hj,
      List.getElem?_eq_getElem hj] at heof
    -- none of the tokens that are left is an end mark
    exact h.rest _ (List.getElem_mem hj) (Option.some.inj heof)

end State.StandsAt

/-- **A parser starts** at the first of its tokens. -/
theorem standsAt_ofTokens (ts : List Token) : (State.ofTokens ts).StandsAt (marked ts) 0 := by
  have hcut : ts.takeWhile (·.kind ≠ .eof) ++ ts.dropWhile (·.kind ≠ .eof) = ts :=
    List.takeWhile_append_dropWhile
  have hfront : ∀ t ∈ ts.takeWhile (·.kind ≠ .eof), t.kind ≠ .eof := fun t ht => by
    simpa using List.mem_takeWhile_imp ht
  generalize ts.takeWhile (·.kind ≠ .eof) = front at hcut hfront
  cases hrest : ts.dropWhile (·.kind ≠ .eof) with
  | nil =>
      rw [hrest, List.append_nil] at hcut
      subst hcut
      have hend : ¬ front.getLast?.map (·.kind) = some .eof := by
        intro heof
        obtain ⟨t, ht, hkind⟩ := Option.map_eq_some_iff.mp heof
        exact hfront t (List.mem_of_getLast? ht) hkind
      rw [ofTokens_open hfront, marked, if_neg hend]
      exact ⟨⟨endAfter_kind front, hfront⟩, [], rfl⟩
  | cons e more =>
      have he : e.kind = .eof := by
        have hhead := List.head?_dropWhile_not (fun t : Token => decide (t.kind ≠ .eof)) ts
        rw [hrest] at hhead
        simpa using hhead
      rw [hrest] at hcut
      subst hcut
      rw [ofTokens_closed hfront he, marked]
      refine ⟨⟨he, hfront⟩, ?_⟩
      split
      · exact ⟨more, rfl⟩
      · exact ⟨more ++ [endAfter (front ++ e :: more)], by simp⟩

/-- The last of the tokens is an end mark. -/
theorem getLast?_marked (ts : List Token) : (marked ts).getLast?.map (·.kind) = some .eof := by
  rw [marked]
  split
  · next hend => exact hend
  · rw [List.getLast?_concat]
    exact congrArg some (endAfter_kind ts)

/-- **A parser may stand at any position** of its tokens. -/
theorem standsAt_of_lt {ts : List Token} {i : Nat} (hi : i < (marked ts).length) :
    (State.ofTokens ((marked ts).drop i)).StandsAt (marked ts) i := by
  have hlast : ((marked ts).drop i).getLast?.map (·.kind) = some .eof := by
    rw [List.getLast?_drop, if_neg (Nat.not_le_of_lt hi), getLast?_marked]
  have hmarked : marked ((marked ts).drop i) = (marked ts).drop i := if_pos hlast
  have hstart := standsAt_ofTokens ((marked ts).drop i)
  rw [hmarked] at hstart
  exact ⟨hstart.toSane, hstart.tokens⟩

end FilterQuery.Parser
