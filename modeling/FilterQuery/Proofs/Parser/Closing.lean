import FilterQuery.Proofs.Parser.Position
import FilterQuery.Proofs.Parser.Skipped

/-!
# The parenthesis that closes a group

When a group is skipped, the parser counts the groups that are opened inside it, and stops at the
parenthesis that closes one more than there are. So it stops behind the first closing parenthesis
at which more parentheses have been closed than opened since the start (`ClosesAt`), or at the end
mark if there is none, for any tokens, balanced or not (`standsAt_skipGroup`). Up to there its count
is the number of parentheses opened less the number closed, which is never below zero.
-/

set_option autoImplicit false

namespace FilterQuery.Parser

/-! ## Counting what is opened and closed -/

/-- The number of parentheses that are opened. -/
def opened (ts : List Token) : Nat := ts.countP (·.kind = .leftParen)

/-- The number of parentheses that are closed. -/
def closed (ts : List Token) : Nat := ts.countP (·.kind = .rightParen)

section

variable {t : Token} {n : Nat} {ts us : List Token}

theorem opened_append (ts us : List Token) : opened (ts ++ us) = opened ts + opened us :=
  List.countP_append

theorem closed_append (ts us : List Token) : closed (ts ++ us) = closed ts + closed us :=
  List.countP_append

theorem opened_cons (t : Token) (ts : List Token) : opened (t :: ts) = opened [t] + opened ts :=
  opened_append [t] ts

theorem closed_cons (t : Token) (ts : List Token) : closed (t :: ts) = closed [t] + closed ts :=
  closed_append [t] ts

theorem opened_of_ne (h : t.kind ≠ .leftParen) : opened [t] = 0 := by simp [opened, h]

theorem closed_of_ne (h : t.kind ≠ .rightParen) : closed [t] = 0 := by simp [closed, h]

theorem opened_leftParen (h : t.kind = .leftParen) : opened [t] = 1 := by simp [opened, h]

theorem closed_rightParen (h : t.kind = .rightParen) : closed [t] = 1 := by simp [closed, h]

/-- **One token** raises the count by what it opens and lowers it by what it closes, unless that is
more than the count. -/
theorem afterGroup_cons (n : Nat) (t : Token) (ts : List Token) :
    afterGroup n (t :: ts) =
      if closed [t] ≤ n + opened [t] then afterGroup (n + opened [t] - closed [t]) ts else ts := by
  by_cases hleft : t.kind = .leftParen
  · have hclosed : closed [t] = 0 := closed_of_ne (by simp [hleft])
    rw [afterGroup_leftParen hleft, opened_leftParen hleft, hclosed, if_pos (Nat.zero_le _)]
    rfl
  have hopened : opened [t] = 0 := opened_of_ne hleft
  by_cases hright : t.kind = .rightParen
  · rw [hopened, closed_rightParen hright]
    cases n with
    | zero => exact afterGroup_rightParen_zero hright
    | succ n => exact afterGroup_rightParen_succ hright
  · rw [afterGroup_other hleft hright, hopened, closed_of_ne hright, if_pos (Nat.zero_le _)]
    rfl

/-! ## Tokens that leave the group open -/

/-- With `n` groups open inside the current one, none of the tokens closes the current one. -/
def StaysOpen (n : Nat) (ts : List Token) : Prop := ∀ us, us <+: ts → closed us ≤ n + opened us

theorem StaysOpen.of_prefix (h : StaysOpen n ts) (hus : us <+: ts) : StaysOpen n us :=
  fun _ hvs => h _ (hvs.trans hus)

theorem staysOpen_nil (n : Nat) : StaysOpen n [] := by
  intro us hus
  rw [List.prefix_nil.mp hus]
  exact Nat.zero_le _

theorem staysOpen_cons_iff :
    StaysOpen n (t :: ts) ↔
      closed [t] ≤ n + opened [t] ∧ StaysOpen (n + opened [t] - closed [t]) ts := by
  constructor
  · intro h
    have hfirst := h [t] ⟨ts, rfl⟩
    refine ⟨hfirst, fun us hus => ?_⟩
    have hmore := h (t :: us) (List.cons_prefix_cons.mpr ⟨rfl, hus⟩)
    rw [closed_cons, opened_cons] at hmore
    omega
  · rintro ⟨hfirst, hrest⟩ us hus
    rcases List.prefix_cons_iff.mp hus with rfl | ⟨vs, rfl, hvs⟩
    · exact Nat.zero_le _
    · have hmore := hrest vs hvs
      rw [closed_cons, opened_cons]
      omega

/-- **The count** behind tokens that leave the group open: what was open before and what is opened,
less what is closed. -/
theorem StaysOpen.afterGroup_append (h : StaysOpen n us) (more : List Token) :
    afterGroup n (us ++ more) = afterGroup (n + opened us - closed us) more := by
  induction us generalizing n with
  | nil => rfl
  | cons t us ih =>
      obtain ⟨hfirst, hrest⟩ := staysOpen_cons_iff.mp h
      have hcount : n + opened [t] - closed [t] + opened us - closed us =
          n + opened (t :: us) - closed (t :: us) := by
        rw [opened_cons t us, closed_cons t us]
        omega
      rw [List.cons_append, afterGroup_cons, if_pos hfirst, ih hrest, hcount]

/-- Either all tokens leave the group open, or the first one that does not is a closing parenthesis
at which nothing else is open. -/
theorem staysOpen_or_exists (n : Nat) (ts : List Token) :
    StaysOpen n ts ∨ ∃ front t tail, ts = front ++ t :: tail ∧ t.kind = .rightParen ∧
      StaysOpen n front ∧ closed front = n + opened front := by
  induction ts generalizing n with
  | nil => exact .inl (staysOpen_nil n)
  | cons t ts ih =>
      by_cases hfirst : closed [t] ≤ n + opened [t]
      · rcases ih (n + opened [t] - closed [t]) with
          hopen | ⟨front, u, tail, rfl, hu, hopen, hcount⟩
        · exact .inl (staysOpen_cons_iff.mpr ⟨hfirst, hopen⟩)
        · refine .inr ⟨t :: front, u, tail, rfl, hu, staysOpen_cons_iff.mpr ⟨hfirst, hopen⟩, ?_⟩
          rw [closed_cons, opened_cons]
          omega
      · have hright : t.kind = .rightParen := by
          by_contra hne
          exact hfirst ((closed_of_ne hne).trans_le (Nat.zero_le _))
        rw [closed_rightParen hright] at hfirst
        refine .inr ⟨[], t, ts, rfl, hright, staysOpen_nil n, ?_⟩
        show 0 = n + 0
        omega

end

/-! ## Positions -/

/-- At position `k`, before any end mark, is a closing parenthesis with which more parentheses have
been closed than opened since position `i`. -/
structure ClosesAt (ts : List Token) (i k : Nat) : Prop where
  le : i ≤ k
  paren : KindAt ts k .rightParen
  endFree : ∀ t ∈ ts.extract i k, t.kind ≠ .eof
  outnumbered : opened (ts.extract i (k + 1)) < closed (ts.extract i (k + 1))

/-- Behind the tokens from position `i` to position `k`, as many groups are counted as open inside
the skipped one as have been opened less those that have been closed, and no more have been closed
than opened. -/
def CountedUpTo (ts : List Token) (i k : Nat) : Prop :=
  closed (ts.extract i k) ≤ opened (ts.extract i k) ∧
    ∀ more, afterGroup 0 (ts.extract i k ++ more) =
      afterGroup (opened (ts.extract i k) - closed (ts.extract i k)) more

section

variable {s : State} {ts front : List Token} {i k : Nat}

/-- A parenthesis that closes the group is among the tokens that are left. -/
theorem ClosesAt.exists_lt (h : ClosesAt ts i k) (hs : s.StandsAt ts i) :
    ∃ m, m < s.rest.length ∧ k = i + m := by
  obtain ⟨⟨-, heof⟩, -⟩ := hs.isLeast_end
  refine ⟨k - i, ?_, (Nat.add_sub_cancel' h.le).symm⟩
  by_contra hbehind
  rcases Nat.eq_or_lt_of_le (Nat.le_of_not_lt hbehind) with heq | hlt
  · have hk : i + s.rest.length = k := by
      have := h.le
      omega
    rw [hk] at heof
    exact absurd (heof.symm.trans h.paren) (by decide)
  · -- the end mark would be in front of the parenthesis
    obtain ⟨e, he, hkind⟩ := Option.map_eq_some_iff.mp heof
    refine h.endFree e (List.mem_of_getElem? (i := s.rest.length) ?_) hkind
    rw [List.extract_eq_take_drop, List.getElem?_take_of_lt hlt, List.getElem?_drop, he]

/-- Up to a position in front of which all tokens leave the group open, they do so. -/
theorem StaysOpen.extract (h : StaysOpen 0 front) (hs : s.StandsAt ts i) (hfront : front <+: s.rest)
    {m : Nat} (hm : m ≤ front.length) : StaysOpen 0 (ts.extract i (i + m)) := by
  rw [hs.extract_eq (hm.trans hfront.length_le)]
  obtain ⟨back, hback⟩ := hfront
  rw [← hback, List.take_append_of_le_length hm]
  exact h.of_prefix (List.take_prefix m front)

/-- Tokens that leave the group open are counted. -/
theorem StaysOpen.countedUpTo (h : StaysOpen 0 front) (hs : s.StandsAt ts i)
    (hfront : front <+: s.rest) (hik : i ≤ k) (hk : k ≤ i + front.length) :
    CountedUpTo ts i k := by
  obtain ⟨m, rfl⟩ := Nat.exists_eq_add_of_le hik
  have hopen := h.extract hs hfront (Nat.le_of_add_le_add_left hk)
  have hcount := hopen _ (List.prefix_refl _)
  rw [Nat.zero_add] at hcount
  refine ⟨hcount, fun more => ?_⟩
  rw [hopen.afterGroup_append, Nat.zero_add]

/-- None of the tokens that leave the group open closes it. -/
theorem StaysOpen.not_closesAt (h : StaysOpen 0 front) (hs : s.StandsAt ts i)
    (hfront : front <+: s.rest) {m : Nat} (hm : m < front.length) : ¬ ClosesAt ts i (i + m) := by
  intro hcloses
  have hopen : StaysOpen 0 (ts.extract i (i + m + 1)) := h.extract hs hfront hm
  have hcount := hopen _ (List.prefix_refl _)
  have hmore := hcloses.outnumbered
  omega

/-- The first closing parenthesis that finds nothing else open is where the group is closed. -/
theorem StaysOpen.isLeast_closesAt (h : StaysOpen 0 front) (hs : s.StandsAt ts i) {u : Token}
    {tail : List Token} (hrest : s.rest = front ++ u :: tail) (hu : u.kind = .rightParen)
    (hcount : closed front = 0 + opened front) :
    IsLeast { k | ClosesAt ts i k } (i + front.length) := by
  have hfront : front <+: s.rest := ⟨u :: tail, hrest.symm⟩
  have hlt : front.length < s.rest.length := by
    rw [hrest, List.length_append, List.length_cons]
    omega
  constructor
  · refine ⟨Nat.le_add_right _ _, ?_, ?_, ?_⟩
    · rw [KindAt, hs.getElem?_add (Nat.le_of_lt hlt), List.getElem?_append_left hlt, hrest,
        List.getElem?_append_right (Nat.le_refl _), Nat.sub_self]
      exact congrArg some hu
    · rw [hs.extract_eq (Nat.le_of_lt hlt)]
      exact fun t ht => hs.rest t (List.take_subset _ _ ht)
    · have htake : s.rest.take (front.length + 1) = front ++ [u] := by
        rw [hrest, List.append_cons, List.take_left' (by simp)]
      have hne : u.kind ≠ .leftParen := by simp [hu]
      rw [Nat.add_assoc, hs.extract_eq hlt, htake, opened_append, closed_append,
        opened_of_ne hne, closed_rightParen hu]
      omega
  · intro k hk
    by_contra hlt
    obtain ⟨m, -, rfl⟩ := ClosesAt.exists_lt hk hs
    exact h.not_closesAt hs hfront (by omega) hk

/-- **Skipping a group.** Wherever the parser stands, skipping takes it to the position right behind
the first parenthesis, before any end mark, with which more have been closed than opened since, and
to the first end mark if there is no such parenthesis; nothing else of its state changes. Up to
there the count of open groups is the number of parentheses opened less the number closed, and there
are never more closed than opened. -/
theorem standsAt_skipGroup (hs : s.StandsAt ts i) :
    ∃ t last j, skipGroup.run s = ((), t) ∧ t.StandsAt ts j ∧ t.depth = s.depth ∧
      t.report = s.report ∧
      (IsLeast { k | ClosesAt ts i k } last ∧ j = last + 1 ∨
        (∀ k, ¬ ClosesAt ts i k) ∧ IsLeast { k | i ≤ k ∧ KindAt ts k .eof } last ∧ j = last) ∧
      ∀ k, i ≤ k → k ≤ last → CountedUpTo ts i k := by
  have hrun : skipGroup.run s = ((), { s with rest := afterGroup 0 s.rest }) := rfl
  have hlater := hs.later (t := { s with rest := afterGroup 0 s.rest })
    (afterGroup_suffix 0 s.rest) rfl
  rcases staysOpen_or_exists 0 s.rest with hopen | ⟨front, u, tail, hrest, hu, hopen, hcount⟩
  · have hnone : afterGroup 0 s.rest = [] := by
      have hall := hopen.afterGroup_append []
      rw [List.append_nil] at hall
      rw [hall]
      rfl
    rw [hnone] at hrun hlater
    refine ⟨_, i + s.rest.length, i + s.rest.length, hrun, hlater, rfl, rfl,
      .inr ⟨?_, hs.isLeast_end, rfl⟩, fun k => hopen.countedUpTo hs (List.prefix_refl _)⟩
    · intro k hk
      obtain ⟨m, hm, rfl⟩ := hk.exists_lt hs
      exact hopen.not_closesAt hs (List.prefix_refl _) hm hk
  · have hafter : afterGroup 0 s.rest = tail := by
      have hzero : 0 + opened front - closed front = 0 := by omega
      rw [hrest, hopen.afterGroup_append, hzero]
      exact afterGroup_rightParen_zero hu
    have hposition : i + (s.rest.length - tail.length) = i + front.length + 1 := by
      rw [hrest, List.length_append, List.length_cons]
      omega
    rw [hafter] at hrun hlater
    refine ⟨_, i + front.length, i + front.length + 1, hrun, hposition ▸ hlater, rfl, rfl,
      .inl ⟨hopen.isLeast_closesAt hs hrest hu hcount, rfl⟩,
      fun k => hopen.countedUpTo hs ⟨u :: tail, hrest.symm⟩⟩

end

/-- Tokens in which a call is closed before the group, with closing parentheses before the group and
after the end mark. -/
def looseTokens : List Token :=
  [(.rightParen, ")"), (.sum, "SUM"), (.leftParen, "("), (.identifier, "b"), (.rightParen, ")"),
    (.comma, ","), (.rightParen, ")"), (.and, "AND"), (.eof, ""), (.rightParen, ")"),
    (.eof, "")].map fun (kind, lexeme) => ⟨.start, kind, lexeme⟩

/-- Inside three groups, at the second of the tokens. -/
def looseState : State := { State.ofTokens (looseTokens.drop 1) with depth := 3 }

theorem standsAt_skipGroup_looseTokens :
    looseState.StandsAt looseTokens 1 ∧
      ∃ t last, skipGroup.run looseState = ((), t) ∧ t.StandsAt looseTokens (last + 1) ∧
        t.depth = 3 ∧ t.report = .empty ∧ IsLeast { k | ClosesAt looseTokens 1 k } last := by
  have hlt : 1 < (marked looseTokens).length := by decide
  have hplace : (State.ofTokens (looseTokens.drop 1)).StandsAt looseTokens 1 := standsAt_of_lt hlt
  have hstands : looseState.StandsAt looseTokens 1 :=
    ⟨⟨hplace.stop, hplace.rest⟩, hplace.tokens⟩
  have hcloses : ClosesAt looseTokens 1 6 := ⟨by decide, rfl, by decide, by decide⟩
  obtain ⟨t, last, j, hrun, hthere, hdepth, hreport, hend, -⟩ := standsAt_skipGroup hstands
  rcases hend with ⟨hleast, rfl⟩ | ⟨hnone, -⟩
  · exact ⟨hstands, t, last, hrun, hthere, hdepth, hreport, hleast⟩
  · exact absurd hcloses (hnone 6)

end FilterQuery.Parser
