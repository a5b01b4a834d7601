import FilterQuery.Proofs.Parser.Sound
import Mathlib.Logic.Relation

/-!
# Steps of the parser

All that a production does to the state of the parser, it does in a few kinds of steps
(`Parser.Step`): it takes the token at hand, opens or closes a group, complains about the token at
hand, or takes a number and complains about it. A group is opened only where fewer than
`maxNesting` are open, and closed only where one is. Several steps make a `Parser.Course`.

Every production is a course of steps that closes the groups it opens (`Parser.Walks`), and so is
the whole parse (`Parser.walks_root`). What each step keeps holds of the whole parse.
-/

set_option autoImplicit false

namespace FilterQuery.Parser

/-! ## Steps and courses -/

/-- One thing that a production does to the state. -/
inductive Step (s : State) : State → Prop where
  /-- The token at hand is taken. -/
  | take : Step s s.advance
  /-- A group is opened. -/
  | enter (h : s.depth < maxNesting) : Step s { s with depth := s.depth + 1 }
  /-- A group is closed. -/
  | leave (h : 0 < s.depth) : Step s { s with depth := s.depth - 1 }
  /-- The token at hand is wrong. -/
  | complain (c : Complaint) : Step s (s.complain s.next c)
  /-- A number is taken, and is wrong. -/
  | refuse : Step s (s.advance.complain s.next .outOfRange)

/-- Steps one after the other. -/
abbrev Course : State → State → Prop := Relation.ReflTransGen Step

/-- A course of steps that closes the groups it opens. -/
structure Passes (s t : State) : Prop where
  course : Course s t
  depth : t.depth = s.depth

namespace Passes

variable {s t u : State}

theorem refl (s : State) : Passes s s := ⟨.refl, rfl⟩

theorem trans (h₁ : Passes s t) (h₂ : Passes t u) : Passes s u :=
  ⟨h₁.course.trans h₂.course, h₂.depth.trans h₁.depth⟩

theorem take (s : State) : Passes s s.advance := ⟨.single .take, rfl⟩

theorem complain (s : State) (c : Complaint) : Passes s (s.complain s.next c) :=
  ⟨.single (.complain c), rfl⟩

/-- Tokens are left out by taking one after the other. -/
theorem drop {s : State} {rest : List Token} (h : rest <:+ s.rest) :
    Passes s { s with rest } := by
  obtain ⟨front, hfront⟩ := h
  induction front generalizing s with
  | nil =>
      rw [List.nil_append] at hfront
      subst hfront
      exact refl s
  | cons t front ih =>
      have hadvance : front ++ rest = s.advance.rest := by
        rw [State.advance, ← hfront]
        rfl
      exact (take s).trans (ih hadvance)

/-- What is done between a group's opening and its closing, seen from outside. -/
theorem nested {t : State} (hs : s.depth < maxNesting)
    (h : Passes { s with depth := s.depth + 1 } t) :
    Passes s { t with depth := t.depth - 1 } := by
  have hdepth : t.depth = s.depth + 1 := h.depth
  refine ⟨.head (.enter hs) (h.course.tail (.leave ?_)), ?_⟩
  · omega
  · show t.depth - 1 = s.depth
    omega

end Passes

/-! ## What every step keeps -/

/-- A step takes tokens from the front only and adds complaints only. -/
theorem Step.steady {s t : State} (h : Step s t) : Steady s { t with depth := s.depth } := by
  cases h with
  | take => exact .advance s
  | enter _ => exact .refl s
  | leave _ => exact .refl s
  | complain c => exact ⟨List.suffix_refl _, rfl, rfl, (Steady.complain s s.next c).report⟩
  | refuse =>
      have hboth := (Steady.advance s).trans (Steady.complain s.advance s.next .outOfRange)
      exact ⟨hboth.rest, hboth.stop, rfl, hboth.report⟩

theorem Course.steady {s t : State} (h : Course s t) : Steady s { t with depth := s.depth } := by
  induction h with
  | refl => exact .refl s
  | tail _ hstep ih =>
      have hlast := hstep.steady
      exact ⟨hlast.rest.trans ih.rest, hlast.stop.trans ih.stop, rfl, ih.report.trans hlast.report⟩

theorem Passes.steady {s t : State} (h : Passes s t) : Steady s t := by
  have hcourse := Course.steady h.course
  exact ⟨hcourse.rest, hcourse.stop, h.depth, hcourse.report⟩

/-- The production is a course of steps, from every state with no more than the allowed groups
open. -/
def Walks {α : Type} (p : Parser α) : Prop :=
  ∀ s : State, s.depth ≤ maxNesting → Passes s (p.run s).2

namespace Walks

variable {α β : Type} {p : Parser α}

theorem pure (a : α) : Walks (Pure.pure a) := fun s _ => .refl s

theorem map {f : α → β} (hp : Walks p) : Walks (f <$> p) := hp

theorem bind {f : α → Parser β} (hp : Walks p) (hf : ∀ a, Walks (f a)) : Walks (p >>= f) := by
  intro s hs
  have hfirst := hp s hs
  rw [run_bind]
  exact hfirst.trans (hf _ _ (hfirst.depth.trans_le hs))

theorem ite {c : Prop} [Decidable c] {q : Parser α} (hp : Walks p) (hq : Walks q) :
    Walks (if c then p else q) := by
  split
  · exact hp
  · exact hq

/-- A token is taken before the production goes on. -/
theorem behind (hp : Walks p) {s : State} (hs : s.depth ≤ maxNesting) :
    Passes s (p.run s.advance).2 := (Passes.take s).trans (hp s.advance hs)

end Walks

/-! ## Steps of the productions, in the order of the grammar -/

theorem walks_advance : Walks advance := fun s _ => .take s

theorem walks_complain (c : Complaint) : Walks (complain c) := fun s _ => .complain s c

theorem walks_sees (k : Kind) : Walks (sees k) := fun s _ => .refl s

theorem walks_eat (k : Kind) : Walks (eat k) := by
  intro s hs
  rw [run_eat]
  split
  · exact walks_advance s hs
  · exact .refl s

theorem walks_expect (k : Kind) (what : Expectation) : Walks (expect k what) := by
  refine (walks_eat k).bind fun taken => ?_
  cases taken with
  | true => exact .pure true
  | false => exact (walks_complain _).bind fun _ => .pure false

theorem walks_skipUntil (stops : List Kind) : Walks (skipUntil stops) :=
  fun _ _ => .drop (List.dropWhile_suffix _)

theorem walks_skipGroup : Walks skipGroup := fun s _ => .drop (afterGroup_suffix 0 s.rest)

theorem walks_skipUnexpected (stops : List Kind) : Walks (skipUnexpected stops) := by
  intro s hs
  rw [run_skipUnexpected]
  split
  · exact .refl s
  · exact (Passes.complain s .unexpected).trans (walks_skipUntil stops _ hs)

theorem walks_chain {α : Type} (separator : Kind) {item : Parser (Option α)} (h : Walks item)
    (fuel : Nat) : Walks (chain separator item fuel) := by
  induction fuel with
  | zero => exact .pure []
  | succ fuel ih =>
      refine h.bind fun first => (walks_eat separator).bind fun more => ?_
      exact .ite (ih.bind fun _ => .pure _) (.pure _)

theorem walks_separated {α : Type} (separator : Kind) {item : Parser (Option α)} (h : Walks item) :
    Walks (separated separator item) := fun s => walks_chain separator h _ s

theorem walks_path : Walks path := by
  intro s hs
  rw [run_path]
  refine (Passes.take s).trans ((Passes.drop (segments_suffix _)).trans ?_)
  exact Walks.ite (.pure _) ((walks_complain _).bind fun _ => .pure none) _ hs

theorem walks_callEnd (function : Token) (argument : Option Tree.Path) :
    Walks (callEnd function argument) :=
  (walks_expect _ _).bind fun _ => .ite (.pure _) (.pure none)

theorem walks_badArgument (c : Complaint) : Walks (badArgument c) :=
  (walks_complain c).bind fun _ => walks_skipGroup.bind fun _ => .pure none

theorem walks_callArgument (function : Token) : Walks (callArgument function) := by
  intro s hs
  rw [run_callArgument]
  split
  · split
    · exact (walks_callEnd function none).behind hs
    · exact walks_badArgument _ s hs
  split
  · exact walks_badArgument _ s hs
  split
  · refine walks_path.bind (fun argument => ?_) s hs
    cases argument with
    | none => exact .pure none
    | some p => exact walks_callEnd function (some p)
  · exact walks_badArgument _ s hs

theorem walks_call : Walks call := by
  refine walks_advance.bind fun function => (walks_expect _ _).bind fun opened => ?_
  exact .ite (walks_callArgument function) (.pure none)

theorem walks_selectable (what : Expectation) : Walks (selectable what) := by
  intro s hs
  rw [run_selectable]
  split
  · exact walks_call.map s hs
  split
  · exact walks_path.map s hs
  · exact walks_complain _ s hs

theorem walks_number : Walks number := by
  intro s _
  rw [run_number]
  show Passes s (if inRange s.next.lexeme then _ else _)
  split
  · exact .take s
  · exact ⟨.single .refuse, rfl⟩

theorem walks_value : Walks value := by
  intro s hs
  by_cases hstring : s.next.kind = .string
  · rw [run_value, if_pos hstring]
    exact .take s
  by_cases hnumber : s.next.kind = .number
  · rw [run_value, if_neg hstring, if_pos hnumber]
    exact walks_number s hs
  · rw [run_value_selectable hstring hnumber]
    exact (walks_selectable _).map s hs

theorem walks_values (fuel : Nat) : Walks (values fuel) := by
  induction fuel with
  | zero => exact .pure none
  | succ fuel ih =>
      refine walks_value.bind fun first => ?_
      cases first with
      | none => exact .pure none
      | some first =>
          refine (walks_eat .comma).bind fun more => .ite (ih.bind fun others => ?_) (.pure _)
          cases others with
          | none => exact .pure none
          | some others => exact .pure _

theorem walks_list : Walks list := by
  refine (walks_expect _ _).bind fun opened => .ite (.pure none) ?_
  refine (walks_sees _).bind fun empty => .ite ((walks_complain _).bind fun _ => .pure none) ?_
  have hvalues : Walks fun s => (values (s.rest.length + 1)).run s := fun s => walks_values _ s
  refine hvalues.bind fun vs => ?_
  cases vs with
  | none => exact .pure none
  | some vs => exact (walks_expect _ _).bind fun _ => .ite (.pure _) (.pure none)

theorem walks_bounds : Walks bounds := by
  refine walks_value.bind fun low => ?_
  cases low with
  | none => exact .pure none
  | some low =>
      refine (walks_expect _ _).bind fun joined => .ite ?_ (.pure none)
      refine walks_value.bind fun high => ?_
      cases high with
      | none => exact .pure none
      | some high => exact .pure _

theorem walks_nullTest : Walks nullTest :=
  (walks_eat _).bind fun _ => (walks_expect _ _).bind fun _ => .ite (.pure _) (.pure none)

theorem walks_test : Walks test := by
  intro s hs
  rw [run_test]
  split
  · exact walks_value.map.behind hs
  split
  · exact walks_list.map.behind hs
  split
  · exact walks_bounds.behind hs
  split
  · exact walks_nullTest.behind hs
  · exact walks_complain _ s hs

theorem walks_joinWord : Walks joinWord := by
  intro s hs
  rw [run_joinWord]
  split
  · exact walks_advance s hs
  · exact .refl s

theorem walks_comparison : Walks comparison := by
  refine walks_joinWord.bind fun join => (walks_selectable _).bind fun left => ?_
  cases left with
  | none => exact .pure none
  | some left =>
      refine walks_test.bind fun test => ?_
      cases test with
      | none => exact .pure none
      | some test => exact .pure _

theorem walks_skipDeepGroup : Walks skipDeepGroup :=
  (walks_complain _).bind fun _ => walks_advance.bind fun _ => walks_skipGroup.bind fun _ =>
    .pure none

/-- A group is a course of steps where one more may be opened. -/
theorem passes_group {inner : Parser Tree.Disjunction} (h : Walks inner) {s : State}
    (hs : s.depth < maxNesting) : Passes s ((group inner).run s).2 := by
  have hinner := h { s.advance with depth := s.depth + 1 } hs
  have hnested : Passes s ((nested inner).run s.advance).2 := by
    rw [run_nested]
    exact (Passes.take s).trans (Passes.nested hs hinner)
  have hend : ∀ d, Walks (expect .rightParen .groupEnd >>= fun b =>
      if b = true then pure (some (Tree.Primary.group d)) else pure none) := fun d =>
    (walks_expect _ _).bind fun _ => .ite (.pure _) (.pure none)
  rw [run_group, run_bind]
  exact hnested.trans (hend _ _ (hnested.depth.trans_le (Nat.le_of_lt hs)))

theorem walks_comparisonTerm : Walks comparisonTerm := by
  refine walks_comparison.bind fun c => ?_
  cases c with
  | none => exact (walks_skipUntil _).bind fun _ => .pure none
  | some c => exact .pure _

theorem walks_primary {inner : Parser Tree.Disjunction} (h : Walks inner) :
    Walks (primary inner) := by
  intro s hs
  rw [run_primary]
  split
  · split
    · exact walks_skipDeepGroup s hs
    · next hdeep => exact passes_group h (Nat.lt_of_le_of_ne hs hdeep)
  · exact walks_comparisonTerm s hs

theorem walks_conjunction {inner : Parser Tree.Disjunction} (h : Walks inner) :
    Walks (conjunction inner) := walks_separated _ (walks_primary h)

theorem walks_disjunctionWithin (levels : Nat) : Walks (disjunctionWithin levels) := by
  induction levels with
  | zero => exact .pure []
  | succ levels ih => exact walks_separated _ (walks_conjunction ih).map

theorem walks_disjunction : Walks disjunction := walks_disjunctionWithin _

theorem walks_groupItem : Walks groupItem := by
  refine (walks_selectable _).bind fun item => ?_
  cases item with
  | none => exact (walks_skipUntil _).bind fun _ => .pure none
  | some item => exact .pure _

theorem walks_groupBy : Walks groupBy := by
  refine walks_advance.bind fun _ => (walks_expect _ _).bind fun _ => ?_
  exact .ite (walks_separated _ walks_groupItem) ((walks_skipUntil _).bind fun _ => .pure [])

theorem walks_groupByClause : Walks groupByClause := by
  refine (walks_sees _).bind fun _ => .ite ?_ (.pure none)
  exact walks_groupBy.bind fun _ => (walks_skipUnexpected _).bind fun _ => .pure _

theorem walks_havingClause : Walks havingClause := by
  refine (walks_eat _).bind fun _ => .ite ?_ (.pure none)
  exact walks_disjunction.bind fun _ => (walks_skipUnexpected _).bind fun _ => .pure _

/-- **A whole parse is a course of steps.** -/
theorem walks_root : Walks root :=
  walks_disjunction.bind fun _ => (walks_skipUnexpected _).bind fun _ =>
    walks_groupByClause.bind fun _ => walks_havingClause.bind fun _ => .pure _

end FilterQuery.Parser
