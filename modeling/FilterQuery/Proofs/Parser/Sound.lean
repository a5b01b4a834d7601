import FilterQuery.Proofs.Parser.Run
import Mathlib.Data.List.TakeWhile

/-!
# What the parser accepts

If the parser of a token list reports nothing, its tree is a derivation of exactly these tokens.
Each production gets one statement of the form `Ensures p s post`, in the order of the grammar:
from a sane state it is steady, and without a complaint it has read the slots of its result, which
is grammatical. Nesting is counted by the `levels` that `disjunctionWithin` may still open, which
together with the groups that are open already make `maxNesting + 1`.
-/

set_option autoImplicit false

namespace FilterQuery.Parser

open FilterQuery.Tree

variable {s : State}

/-- A production that may fail, and what follows when it does not. -/
theorem Ensures.bind_some {α β : Type} {p : Parser (Option α)} {f : Option α → Parser β}
    {written : α → List Slot} {good : α → Prop} {post : β → State → Prop}
    (hp : Ensures p s (Produces written good s))
    (hnone : ∀ t, Ensures (f none) t fun _ _ => True)
    (hsome : ∀ a t, Steady s t → Ensures (f (some a)) t fun b u =>
      Reads (written a) s t → good a → post b u) : Ensures (p >>= f) s post := by
  refine hp.bind fun o t ht => ?_
  cases o with
  | none => exact (hnone t).imp fun b u _ ⟨_, h, _⟩ => nomatch h
  | some a =>
      refine (hsome a t ht).imp fun b u hpost ⟨_, h, hread, hgood⟩ => ?_
      cases h
      exact hpost hread hgood

/-- Behind an item and a separator fewer tokens are left than before them. -/
theorem length_advance_lt {t : State} {k : Kind} {fuel : Nat} (ht : Steady s t)
    (hmark : Reads [.mark k] t t.advance) (hfuel : s.rest.length < fuel + 1) :
    t.advance.rest.length < fuel := by
  have hitem := ht.rest.length_le
  have hseparator := hmark.length_eq
  simp only [List.length_singleton] at hseparator
  omega

/-! ## Paths and calls -/

theorem segments_suffix (ts : List Token) : (segments ts).2.2 <:+ ts := by
  fun_induction segments ts with
  | case1 => exact List.suffix_refl _
  | case2 dot t ts _ _ path complete rest heq ih =>
      rw [heq] at ih
      exact ih.trans ((List.suffix_cons t ts).trans (List.suffix_cons dot _))
  | case3 dot t ts => exact List.suffix_cons dot _
  | case4 t => exact List.suffix_cons t []
  | case5 => exact List.suffix_refl _
  | case6 => exact List.suffix_refl _

/-- Complete segments are read one by one, each after a dot. -/
theorem segments_spelled (ts : List Token) (h : (segments ts).2.1 = true) :
    (∃ front, ts = front ++ (segments ts).2.2 ∧
        Spells (Path.segmentsWritten (segments ts).1) front) ∧
      ∀ u ∈ (segments ts).1, u.kind = .identifier ∨ u.kind.isKeyword := by
  fun_induction segments ts with
  | case1 => exact ⟨⟨[], rfl, .nil⟩, nofun⟩
  | case2 dot t ts hdot hseg path complete rest heq ih =>
      rw [heq] at ih
      obtain ⟨⟨front, hfront, hspelled⟩, hkinds⟩ := ih h
      refine ⟨⟨dot :: t :: front, ?_, .cons (not_not.mp hdot) (.cons rfl hspelled)⟩, ?_⟩
      · rw [hfront]
        rfl
      · exact List.forall_mem_cons.mpr ⟨(isSegment_iff _).mp hseg, hkinds⟩
  | case3 => cases h
  | case4 => cases h
  | case5 => exact ⟨⟨[], rfl, .nil⟩, nofun⟩
  | case6 => exact ⟨⟨[], rfl, .nil⟩, nofun⟩

/-- A token of a class without the end mark and numbers is kept as it is. -/
theorem Reads.kept_of_class (hs : s.Sane) (inClass : Kind → Bool)
    (h : inClass s.next.kind = true) (heof : inClass .eof = false)
    (hnumber : inClass .number = false) : Reads [.kept s.next] s s.advance := by
  refine .kept hs ?_ ?_
  · intro hk
    rw [hk, heof] at h
    cases h
  · intro hk
    rw [hk, hnumber] at h
    cases h

theorem path_ensures (h : s.atPath = true) :
    Ensures path s (Produces Path.written Path.Grammatical s) := by
  refine .of_sane fun hs => ?_
  have hfirst : Reads [.kept s.next] s s.advance :=
    .kept_of_class hs (fun k => k == .identifier || k.isAggregate) h rfl rfl
  refine .through ((Steady.advance s).trans (Steady.drop _ (segments_suffix _))) (run_path s) ?_
  split
  · next hcomplete =>
      obtain ⟨hspelled, hkinds⟩ := segments_spelled _ hcomplete
      refine .pure ⟨_, rfl, ?_, atPath_iff.mp h, hkinds⟩
      rw [Path.written_cons]
      refine hfirst.cons ⟨hspelled, ?_⟩
      -- numbers in range: no segment is a number
      simp only [Path.segmentsWritten, List.mem_flatMap]
      rintro slot ⟨u, hu, hslot⟩
      rcases List.mem_pair.mp hslot with rfl | rfl
      · trivial
      · intro hnumber
        have := hkinds u hu
        simp [hnumber, Kind.isKeyword, Kind.isAggregate] at this
  · exact .of_complaint rfl (.pure trivial)

theorem callEnd_ensures (function : Token) (argument : Option Tree.Path) :
    Ensures (callEnd function argument) s fun o t =>
      o = some ⟨function, argument⟩ ∧ Reads [.mark .rightParen] s t := by
  refine .expect_bind (by decide) (fun hread => ?_) (fun _ => .pure trivial)
  exact .pure ⟨rfl, hread⟩

theorem badArgument_ensures (c : Complaint) (post : Option Tree.Call → State → Prop) :
    Ensures (badArgument c) s post :=
  .of_complaint (t := s.next) (c := c) rfl
    ((skipGroup_ensures _).bind fun _ _ _ => .pure fun _ => trivial)

theorem callArgument_ensures (function : Token) (hfunction : function.kind.isAggregate = true) :
    Ensures (callArgument function) s fun o t =>
      ∃ argument, o = some ⟨function, argument⟩ ∧ (Call.mk function argument).Grammatical ∧
        Reads (Call.argumentWritten argument ++ [.mark .rightParen]) s t := by
  refine .of_sane fun hs => ?_
  by_cases hstar : s.next.kind = .star
  · by_cases hcount : function.kind = .count
    · refine .through (Steady.advance s) (q := callEnd function none) ?_
        ((callEnd_ensures function none).imp ?_)
      · rw [run_callArgument, if_pos hstar, if_pos hcount]
      · rintro o t ⟨rfl, hread⟩
        exact ⟨none, rfl, ⟨hfunction, hcount⟩, (Reads.mark hs hstar (by decide)).cons hread⟩
    · refine .through (Steady.refl s) (q := badArgument (.starOutsideCount function.lexeme)) ?_
        (badArgument_ensures _ _)
      rw [run_callArgument, if_pos hstar, if_neg hcount]
  by_cases hcall : s.atCall = true
  · refine .through (Steady.refl s) (q := badArgument .nestedCall) ?_ (badArgument_ensures _ _)
    rw [run_callArgument, if_neg hstar, if_pos hcall]
  by_cases hpath : s.atPath = true
  · refine .through (Steady.refl s) (q := path >>= callAfterPath function) ?_ ?_
    · rw [run_callArgument, if_neg hstar, if_neg hcall, if_pos hpath]
    refine (path_ensures hpath).bind_some (fun _ => .pure trivial) fun p t _ => ?_
    refine (callEnd_ensures function (some p)).imp ?_
    rintro o u ⟨rfl, hread⟩ hargument hgood
    exact ⟨some p, rfl, ⟨hfunction, hgood⟩, hargument.append hread⟩
  · refine .through (Steady.refl s) (q := badArgument (.expected .callArgument)) ?_
      (badArgument_ensures _ _)
    rw [run_callArgument, if_neg hstar, if_neg hcall, if_neg hpath]

theorem call_ensures (h : s.atCall = true) :
    Ensures call s (Produces Call.written Call.Grammatical s) := by
  refine .of_sane fun hs => ?_
  have hfunction := (atCall_iff.mp h).1
  have hread : Reads [.kept s.next] s s.advance :=
    .kept_of_class hs Kind.isAggregate hfunction rfl rfl
  refine .through (Steady.advance s)
    (q := expect .leftParen .callStart >>= fun b =>
      if b = true then callArgument s.next else pure none) rfl ?_
  refine .expect_bind (by decide) (fun hopen => ?_) (fun _ => .pure trivial)
  refine (callArgument_ensures s.next hfunction).imp ?_
  rintro o t ⟨argument, rfl, hgood, hargument⟩
  exact ⟨_, rfl, hread.cons (hopen.cons hargument), hgood⟩

/-- A production whose result is wrapped. -/
theorem Ensures.map_produces {α β : Type} {p : Parser (Option α)} {f : α → β}
    {written : α → List Slot} {good : α → Prop} {written' : β → List Slot} {good' : β → Prop}
    (hp : Ensures p s (Produces written good s)) (hwritten : ∀ a, written' (f a) = written a)
    (hgood : ∀ a, good a → good' (f a)) :
    Ensures ((·.map f) <$> p) s (Produces written' good' s) := by
  refine .map (hp.imp ?_)
  rintro o t ⟨a, rfl, hread, ha⟩
  exact ⟨f a, rfl, by rwa [hwritten], hgood a ha⟩

theorem selectable_ensures (what : Expectation) (s : State) :
    Ensures (selectable what) s (Produces Selectable.written Selectable.Grammatical s) := by
  by_cases hcall : s.atCall = true
  · refine .through (Steady.refl s) (q := (·.map Selectable.call) <$> call) ?_
      ((call_ensures hcall).map_produces (f := Selectable.call) (fun _ => rfl) (fun _ h => h))
    rw [run_selectable, if_pos hcall]
  by_cases hpath : s.atPath = true
  · refine .through (Steady.refl s) (q := (·.map Selectable.path) <$> path) ?_
      ((path_ensures hpath).map_produces (f := Selectable.path) (fun _ => rfl) (fun _ h => h))
    rw [run_selectable, if_neg hcall, if_pos hpath]
  · refine .of_complaint (t := s.next) (c := .expected what) (q := pure none) ?_ (.pure trivial)
    rw [run_selectable, if_neg hcall, if_neg hpath, run_pure]

/-! ## Values -/

theorem number_ensures (h : s.next.kind = .number) :
    Ensures number s (Produces Value.written Value.Grammatical s) := by
  refine .of_sane fun hs => ?_
  by_cases hr : inRange s.next.lexeme = true
  · have hread : Reads [.kept s.next] s s.advance :=
      .kept hs (by simp [h]) fun _ => (inRange_iff _).mp hr
    refine .through (Steady.advance s) (q := pure (some (.number s.next))) ?_
      (.pure ⟨.number s.next, rfl, hread, h⟩)
    rw [run_number, if_pos hr, run_pure]
  · -- the number is taken before the complaint about it
    refine .through (Steady.advance s)
      (q := fun t => (some (.number s.next), t.complain s.next .outOfRange)) ?_
      (.of_complaint (t := s.next) (c := .outOfRange) (q := pure (some (.number s.next))) rfl
        (.pure trivial))
    rw [run_number, if_neg hr]
    rfl

theorem value_ensures (s : State) :
    Ensures value s (Produces Value.written Value.Grammatical s) := by
  refine .of_sane fun hs => ?_
  by_cases hstring : s.next.kind = .string
  · have hread : Reads [.kept s.next] s s.advance :=
      .kept hs (by simp [hstring]) (by simp [hstring])
    refine .through (Steady.advance s) (q := pure (some (.string s.next))) ?_
      (.pure ⟨.string s.next, rfl, hread, hstring⟩)
    rw [run_value, if_pos hstring, run_pure]
  by_cases hnumber : s.next.kind = .number
  · refine .through (Steady.refl s) (q := number) ?_ (number_ensures hnumber)
    rw [run_value, if_neg hstring, if_pos hnumber]
  · refine .through (Steady.refl s) (run_value_selectable hstring hnumber)
      ((selectable_ensures .value s).map_produces ?_ ?_)
    · rintro (p | c) <;> rfl
    · rintro (p | c) h <;> exact h

/-- The values of a list; the bound on their number is never met. -/
theorem values_ensures (fuel : Nat) (s : State) (hfuel : s.rest.length < fuel) :
    Ensures (values fuel) s (Produces (fun vs => joined .comma (vs.map Value.written))
      (fun vs => vs ≠ [] ∧ ∀ v ∈ vs, v.Grammatical) s) := by
  induction fuel generalizing s with
  | zero => cases hfuel
  | succ fuel ih =>
      refine (value_ensures s).bind_some (fun _ => .pure trivial) fun v t ht => ?_
      refine .eat_bind (by decide) (fun _ hcomma => ?_) (fun _ => ?_)
      · refine (ih t.advance (length_advance_lt ht hcomma hfuel)).bind_some
          (fun _ => .pure trivial) fun vs u _ => ?_
        refine .pure fun hvs hgood hv hvgood => ⟨v :: vs, rfl, ?_, nofun, ?_⟩
        · exact hv.joined_cons hcomma hvs (by simpa using hgood.1)
        · exact List.forall_mem_cons.mpr ⟨hvgood, hgood.2⟩
      · exact .pure fun hv hvgood => ⟨[v], rfl, hv.joined_one, nofun, by simpa using hvgood⟩

theorem list_ensures (s : State) :
    Ensures list s fun o t => ∃ vs, o = some vs ∧ (Test.isIn vs).Grammatical ∧
      Reads (.mark .leftParen :: (joined .comma (vs.map Value.written) ++ [.mark .rightParen]))
        s t := by
  refine .expect_bind (by decide) (fun hopen => ?_) (fun _ => .pure trivial)
  refine .sees_bind (fun _ => .of_complaint rfl (.pure trivial)) (fun _ => ?_)
  have hvalues : Ensures (fun t => (values (t.rest.length + 1)).run t) s.advance _ :=
    values_ensures _ _ (Nat.lt_succ_self _)
  refine hvalues.bind_some (fun _ => .pure trivial) fun vs t _ => ?_
  refine .expect_bind (by decide) (fun hclose => ?_) (fun _ => .pure trivial)
  exact .pure fun hread hgood => ⟨vs, rfl, hgood, hopen.cons (hread.append hclose)⟩

/-! ## Comparisons -/

theorem bounds_ensures (s : State) :
    Ensures bounds s fun o t => ∃ low high, o = some (.between low high) ∧
      (Test.between low high).Grammatical ∧
      Reads (low.written ++ .mark .and :: high.written) s t := by
  refine (value_ensures s).bind_some (fun _ => .pure trivial) fun low t _ => ?_
  refine .expect_bind (by decide) (fun hand => ?_) (fun _ => .pure trivial)
  refine (value_ensures _).bind_some (fun _ => .pure trivial) fun high u _ => ?_
  exact .pure fun hhigh hhighGood hlow hlowGood =>
    ⟨low, high, rfl, ⟨hlowGood, hhighGood⟩, hlow.append (hand.cons hhigh)⟩

theorem nullTest_ensures (s : State) :
    Ensures nullTest s fun o t => ∃ test : Test, o = some test ∧ test.Grammatical ∧
      ∃ slots, test.written = .mark .is :: slots ∧ Reads slots s t := by
  refine .eat_bind (by decide) (fun _ hnot => ?_) (fun _ => ?_)
  · refine .expect_bind (by decide) (fun hnull => ?_) (fun _ => .pure trivial)
    exact .pure ⟨.notNull, rfl, trivial, _, rfl, hnot.cons hnull⟩
  · refine .expect_bind (by decide) (fun hnull => ?_) (fun _ => .pure trivial)
    exact .pure ⟨.null, rfl, trivial, _, rfl, hnull⟩

theorem test_ensures (s : State) : Ensures test s (Produces Test.written Test.Grammatical s) := by
  refine .of_sane fun hs => ?_
  by_cases hcompare : s.next.kind.isComparison = true
  · have hread : Reads [.kept s.next] s s.advance :=
      .kept_of_class hs Kind.isComparison hcompare rfl rfl
    refine .through (Steady.advance s) (q := (·.map (.compare s.next)) <$> value) ?_
      (.map ((value_ensures _).imp ?_))
    · rw [run_test, if_pos hcompare]
    · rintro o t ⟨v, rfl, hv, hgood⟩
      exact ⟨_, rfl, hread.cons hv, hcompare, hgood⟩
  by_cases hin : s.next.kind = .isIn
  · refine .through (Steady.advance s) (q := (·.map .isIn) <$> list) ?_
      (.map ((list_ensures _).imp ?_))
    · rw [run_test, if_neg hcompare, if_pos hin]
    · rintro o t ⟨vs, rfl, hgood, hread⟩
      exact ⟨_, rfl, (Reads.mark hs hin (by decide)).cons hread, hgood⟩
  by_cases hbetween : s.next.kind = .between
  · refine .through (Steady.advance s) (q := bounds) ?_ ((bounds_ensures _).imp ?_)
    · rw [run_test, if_neg hcompare, if_neg hin, if_pos hbetween]
    · rintro o t ⟨low, high, rfl, hgood, hread⟩
      exact ⟨_, rfl, (Reads.mark hs hbetween (by decide)).cons hread, hgood⟩
  by_cases his : s.next.kind = .is
  · refine .through (Steady.advance s) (q := nullTest) ?_ ((nullTest_ensures _).imp ?_)
    · rw [run_test, if_neg hcompare, if_neg hin, if_neg hbetween, if_pos his]
    · rintro o t ⟨test, rfl, hgood, slots, hwritten, hread⟩
      exact ⟨test, rfl, hwritten ▸ (Reads.mark hs his (by decide)).cons hread, hgood⟩
  · refine .of_complaint (t := s.next) (c := .expected .operator) (q := pure none) ?_
      (.pure trivial)
    rw [run_test, if_neg hcompare, if_neg hin, if_neg hbetween, if_neg his, run_pure]

theorem joinWord_ensures (s : State) :
    Ensures joinWord s fun join t => Reads (join.toList.map .kept) s t ∧
      ∀ t ∈ join, t.kind = .left ∨ t.kind = .right := by
  refine .of_sane fun hs => ?_
  by_cases h : s.next.kind = .left ∨ s.next.kind = .right
  · have hread : Reads [.kept s.next] s s.advance :=
      .kept_of_class hs (fun k => k == .left || k == .right) (by simpa using h) rfl rfl
    refine .through (Steady.advance s) (q := pure (some s.next)) ?_ (.pure ⟨hread, ?_⟩)
    · rw [run_joinWord, if_pos h, run_pure]
    · rintro t ⟨⟩
      exact h
  · refine .through (Steady.refl s) (q := pure none) ?_ (.pure ⟨.refl s, nofun⟩)
    rw [run_joinWord, if_neg h, run_pure]

theorem comparison_ensures (s : State) :
    Ensures comparison s (Produces Comparison.written Comparison.Grammatical s) := by
  refine (joinWord_ensures s).bind fun join t _ => ?_
  refine (selectable_ensures .operand t).bind_some (fun _ => .pure trivial) fun left u _ => ?_
  refine (test_ensures u).bind_some (fun _ => .pure trivial) fun test v _ => ?_
  exact .pure fun htest htestGood hleft hleftGood hjoin =>
    ⟨⟨join, left, test⟩, rfl, hjoin.1.append (hleft.append htest), hjoin.2, hleftGood, htestGood⟩

/-! ## Lists with separators -/

section

variable {α : Type} {separator : Kind} {item : Parser (Option α)} {written : α → List Slot}
  {good : α → Prop} {depth : Nat}

/-- Without a complaint no item is left out. The bound on their number is never met. -/
theorem chain_ensures (hseparator : separator ≠ .eof)
    (hitem : ∀ t : State, t.depth = depth → Ensures item t (Produces written good t))
    (fuel : Nat) (s : State) (hdepth : s.depth = depth) (hfuel : s.rest.length < fuel) :
    Ensures (chain separator item fuel) s fun xs t =>
      Reads (joined separator (xs.map written)) s t ∧ xs ≠ [] ∧ ∀ x ∈ xs, good x := by
  induction fuel generalizing s with
  | zero => cases hfuel
  | succ fuel ih =>
      refine (hitem s hdepth).bind fun o t ht => ?_
      refine .eat_bind hseparator (fun _ hmark => ?_) (fun _ => ?_)
      · have hlt := length_advance_lt ht hmark hfuel
        refine (ih t.advance (ht.depth.trans hdepth) hlt).bind fun xs u _ => .pure ?_
        rintro ⟨hxs, hne, hgood⟩ ⟨x, rfl, hx, hxgood⟩
        exact ⟨hx.joined_cons hmark hxs (by simpa using hne), by simp,
          List.forall_mem_cons.mpr ⟨hxgood, hgood⟩⟩
      · -- an item that fails has complained, so this one is there
        refine .pure ?_
        rintro ⟨x, rfl, hx, hxgood⟩
        exact ⟨hx.joined_one, by simp, by simpa using hxgood⟩

theorem separated_ensures (hseparator : separator ≠ .eof)
    (hitem : ∀ t : State, t.depth = s.depth → Ensures item t (Produces written good t)) :
    Ensures (separated separator item) s fun xs t =>
      Reads (joined separator (xs.map written)) s t ∧ xs ≠ [] ∧ ∀ x ∈ xs, good x :=
  chain_ensures hseparator hitem _ s rfl (Nat.lt_succ_self _)

end

/-! ## Conditions -/

theorem nested_ensures {α : Type} {inner : Parser α} {post : α → State → Prop}
    (hinner : Ensures inner { s with depth := s.depth + 1 } post) :
    Ensures (nested inner) s fun a t => post a { t with depth := s.depth + 1 } := by
  intro hs
  obtain ⟨hsteady, hpost⟩ := hinner ⟨hs.stop, hs.rest⟩
  rw [run_nested]
  generalize inner.run { s with depth := s.depth + 1 } = r at hsteady hpost
  -- the group that `nested` closes is the one that it opened
  have hdepth : r.2.depth = s.depth + 1 := hsteady.depth
  refine ⟨⟨hsteady.rest, hsteady.stop, ?_, hsteady.report⟩, fun hc => ?_⟩
  · rw [hdepth, Nat.add_sub_cancel]
  · rw [← hdepth]
    exact hpost hc

/-- What a production for disjunctions ensures if `depth` groups are open: groups inside it count
from there. -/
def ProducesDisjunction (depth : Nat) (s : State) (d : Disjunction) (t : State) : Prop :=
  Reads (Disjunction.written d) s t ∧ Disjunction.Grammatical d ∧
    Disjunction.nesting d + depth ≤ maxNesting

/-- What is asked of a term if `depth` groups are open around it. -/
def GoodTerm (depth : Nat) (p : Primary) : Prop :=
  p.Grammatical ∧ p.nesting + depth ≤ maxNesting

theorem group_ensures {inner : Parser Disjunction}
    (hparen : s.next.kind = .leftParen)
    (hinner : ∀ t : State, t.depth = s.depth + 1 →
      Ensures inner t (ProducesDisjunction (s.depth + 1) t)) :
    Ensures (group inner) s (Produces Primary.written (GoodTerm s.depth) s) := by
  refine .of_sane fun hs => ?_
  refine .through (Steady.advance s) (run_group s inner) ?_
  refine (nested_ensures (hinner { s.advance with depth := s.depth + 1 } rfl)).bind
    fun d t _ => ?_
  refine .expect_bind (by decide) (fun hclose => ?_) (fun _ => .pure trivial)
  refine .pure fun ⟨hread, hgood, hnesting⟩ => ⟨.group d, rfl, ?_, ?_, ?_⟩
  · rw [Primary.written_group]
    have hread : Reads (Disjunction.written d) s.advance t := ⟨hread.spelled, hread.inRange⟩
    exact (Reads.mark hs hparen (by decide)).cons (hread.append hclose)
  · exact Primary.grammatical_group_iff.mpr hgood
  · rw [Primary.nesting_group]
    omega

theorem comparisonTerm_ensures (depth : Nat) (hdepth : depth ≤ maxNesting) (s : State) :
    Ensures comparisonTerm s (Produces Primary.written (GoodTerm depth) s) := by
  refine (comparison_ensures s).bind_some ?_ fun c t _ => ?_
  · exact fun t => (skipUntil_ensures _ t).bind fun _ _ _ => .pure fun _ => trivial
  · refine .pure fun hread hgood => ⟨.comparison c, rfl, ?_, .comparison hgood, ?_⟩
    · rwa [Primary.written_comparison]
    · rwa [Primary.nesting_comparison, Nat.zero_add]

theorem primary_ensures {inner : Parser Disjunction} (hdepth : s.depth ≤ maxNesting)
    (hinner : s.depth < maxNesting → ∀ t : State, t.depth = s.depth + 1 →
      Ensures inner t (ProducesDisjunction (s.depth + 1) t)) :
    Ensures (primary inner) s (Produces Primary.written (GoodTerm s.depth) s) := by
  by_cases hparen : s.next.kind = .leftParen
  · by_cases hdeep : s.depth = maxNesting
    · -- one group too many: all of it is skipped, after a complaint
      refine .of_complaint (t := s.next) (c := .tooDeep)
        (q := advance >>= fun _ => skipGroup >>= fun _ => pure none) ?_ ?_
      · rw [run_primary, if_pos hparen, if_pos hdeep]
        rfl
      · refine .through (Steady.advance _) (q := skipGroup >>= fun _ => pure none) rfl ?_
        exact (skipGroup_ensures _).bind fun _ _ _ => .pure fun _ => trivial
    · refine .through (Steady.refl s) (q := group inner) ?_
        (group_ensures hparen (hinner (by omega)))
      rw [run_primary, if_pos hparen, if_neg hdeep]
  · refine .through (Steady.refl s) (q := comparisonTerm) ?_
      (comparisonTerm_ensures s.depth hdepth s)
    rw [run_primary, if_neg hparen]

/-- **Conditions.** `levels` and the open groups together are one more than `maxNesting`, so a
group is entered only where `levels` is not used up. -/
theorem disjunctionWithin_ensures (levels : Nat) (s : State)
    (hlevels : s.depth + levels = maxNesting + 1) (hdepth : s.depth ≤ maxNesting) :
    Ensures (disjunctionWithin levels) s (ProducesDisjunction s.depth s) := by
  induction levels generalizing s with
  | zero => omega
  | succ levels ih =>
      have hprimary : ∀ t : State, t.depth = s.depth →
          Ensures (primary (disjunctionWithin levels)) t
            (Produces Primary.written (GoodTerm s.depth) t) := by
        intro t ht
        rw [← ht]
        refine primary_ensures (by omega) fun hlt u hu => ?_
        rw [← hu]
        exact ih u (by omega) (by omega)
      have hconjunction : ∀ t : State, t.depth = s.depth →
          Ensures (some <$> conjunction (disjunctionWithin levels)) t
            (Produces Conjunction.written (fun c => c ≠ [] ∧ ∀ p ∈ c, GoodTerm s.depth p) t) := by
        intro t ht
        refine .map ((separated_ensures (by decide) fun u hu => hprimary u (hu.trans ht)).imp ?_)
        rintro c u ⟨hread, hgood⟩
        exact ⟨c, rfl, hread, hgood⟩
      -- what the terms say of their nesting is collected for the disjunction
      refine (separated_ensures (by decide) hconjunction).imp ?_
      rintro d t ⟨hread, hne, hgood⟩
      refine ⟨hread, ⟨hne, fun c hc => (hgood c hc).1,
        fun c hc p hp => ((hgood c hc).2 p hp).1⟩, ?_⟩
      have hnesting : Disjunction.nesting d ≤ maxNesting - s.depth := by
        refine Disjunction.nesting_le_iff.mpr fun c hc p hp => ?_
        have := ((hgood c hc).2 p hp).2
        omega
      omega

/-! ## Clauses -/

theorem groupItem_ensures (s : State) :
    Ensures groupItem s (Produces Selectable.written Selectable.Grammatical s) := by
  refine (selectable_ensures .groupItem s).bind_some ?_ fun item t _ => ?_
  · exact fun t => (skipUntil_ensures _ t).bind fun _ _ _ => .pure fun _ => trivial
  · exact .pure fun hread hgood => ⟨item, rfl, hread, hgood⟩

theorem groupBy_ensures (hgroup : s.next.kind = .group) :
    Ensures groupBy s fun items t => Reads (groupingWritten (some items)) s t ∧
      items ≠ [] ∧ ∀ item ∈ items, item.Grammatical := by
  refine .of_sane fun hs => ?_
  refine .through (Steady.advance s) (q := expect .by .byWord >>= fun b =>
    if b = true then separated .comma groupItem
    else skipUntil [.having] >>= fun _ => pure []) rfl ?_
  refine .expect_bind (by decide) (fun hby => ?_) (fun t => ?_)
  · refine (separated_ensures (by decide) fun t _ => groupItem_ensures t).imp ?_
    rintro items t ⟨hread, hne, hgood⟩
    exact ⟨(Reads.mark hs hgroup (by decide)).cons (hby.cons hread), hne, hgood⟩
  · exact (skipUntil_ensures _ t).bind fun _ _ _ => .pure fun _ => trivial

/-- After the clause nothing but `HAVING` may follow, if nothing else but `GROUP` stood before
it. -/
theorem groupByClause_ensures (s : State) :
    Ensures groupByClause s fun grouping t => Reads (groupingWritten grouping) s t ∧
      (∀ items ∈ grouping, items ≠ [] ∧ ∀ item ∈ items, item.Grammatical) ∧
      (s.next.kind = .eof ∨ s.next.kind ∈ [.group, .having] →
        t.next.kind = .eof ∨ t.next.kind = .having) := by
  refine .sees_bind (fun hgroup => ?_) (fun hgroup => ?_)
  · refine (groupBy_ensures hgroup).bind fun items t _ => ?_
    refine (skipUnexpected_ensures [.having] t).bind fun _ u _ => ?_
    refine .pure ?_
    rintro ⟨rfl, hnext⟩ ⟨hread, hgood⟩
    refine ⟨hread, ?_, fun _ => by simpa using hnext⟩
    rintro items ⟨⟩
    exact hgood
  · exact .pure ⟨.refl s, nofun, by simp [hgroup]⟩

/-- After the clause nothing follows, if nothing else but `HAVING` stood before it. -/
theorem havingClause_ensures (hdepth : s.depth = 0) :
    Ensures havingClause s fun having t => Reads (havingWritten having) s t ∧
      (∀ d ∈ having, Disjunction.Grammatical d ∧ Disjunction.nesting d ≤ maxNesting) ∧
      (s.next.kind = .eof ∨ s.next.kind = .having → t.next.kind = .eof) := by
  refine .eat_bind (by decide) (fun _ hread => ?_) (fun hhaving => ?_)
  · have hd : s.advance.depth = 0 := hdepth
    refine (disjunctionWithin_ensures (maxNesting + 1) s.advance (by omega) (by omega)).bind
      fun d t _ => ?_
    refine (skipUnexpected_ensures [] t).bind fun _ u _ => ?_
    refine .pure ?_
    rintro ⟨rfl, hnext⟩ ⟨hdRead, hgood, hnesting⟩
    refine ⟨hread.cons hdRead, ?_, fun _ => by simpa using hnext⟩
    rintro d ⟨⟩
    exact ⟨hgood, by omega⟩
  · exact .pure ⟨.refl s, nofun, fun h => h.resolve_right hhaving⟩

/-- **Queries.** Without a complaint every token up to the end was read into the tree. -/
theorem root_ensures (hdepth : s.depth = 0) :
    Ensures root s fun r t => Reads r.written s t ∧ r.WellFormed maxNesting ∧
      t.next.kind = .eof := by
  refine (disjunctionWithin_ensures (maxNesting + 1) s (by omega) (by omega)).bind
    fun condition t ht => ?_
  refine (skipUnexpected_ensures [.group, .having] t).bind fun _ u hu => ?_
  refine (groupByClause_ensures u).bind fun grouping v hv => ?_
  -- all groups of the condition are closed again where `HAVING` starts
  have hvdepth : v.depth = 0 := by rw [hv.depth, hu.depth, ht.depth, hdepth]
  refine (havingClause_ensures hvdepth).bind fun having w _ => ?_
  refine .pure ?_
  rintro ⟨hhaving, hhavingGood, hend⟩ ⟨hgrouping, hgroupingGood, hafter⟩ ⟨rfl, hbefore⟩
    ⟨hcondition, hgood, hnesting⟩
  have hread : Reads (Root.mk condition grouping having).written s w :=
    hcondition.append (hgrouping.append hhaving)
  refine ⟨hread, ⟨⟨hgood, hgroupingGood, fun d hd => (hhavingGood d hd).1⟩, ?_, hread.inRange⟩,
    hend (hafter hbefore)⟩
  refine Nat.max_le.mpr ⟨Nat.le_of_add_right_le hnesting, ?_⟩
  cases having with
  | none => exact Nat.zero_le _
  | some d => exact (hhavingGood d rfl).2

/-! ## From the tokens on -/

theorem State.sane_ofTokens (tokens : List Token) : (State.ofTokens tokens).Sane := by
  constructor
  · show ((tokens.find? (·.kind = .eof)).getD (endAfter tokens)).kind = .eof
    cases h : tokens.find? (·.kind = .eof) with
    | none =>
        rw [Option.getD_none, endAfter]
        split <;> rfl
    | some t => simpa using List.find?_some h
  · intro t ht
    simpa using List.all_eq_true.mp List.all_takeWhile t ht

/-- Nothing is left where the end mark is at hand. -/
theorem State.Sane.rest_eq_nil {s : State} (hs : s.Sane) (h : s.next.kind = .eof) :
    s.rest = [] := by
  cases hr : s.rest with
  | nil => rfl
  | cons t ts =>
      refine absurd ?_ (hs.rest t (by simp [hr]))
      simpa [State.next, hr] using h

end FilterQuery.Parser

namespace FilterQuery.Tree

open FilterQuery.Parser

/-- A run that reports nothing read its tree and left nothing over. -/
theorem reads_of_isEmpty {tokens : List Token} (h : (parse tokens).2.isEmpty) :
    ∃ t, Reads (parse tokens).1.written (.ofTokens tokens) t ∧ t.rest = [] ∧
      (parse tokens).1.WellFormed maxNesting := by
  rw [parse_eq] at h ⊢
  have hs := State.sane_ofTokens tokens
  have hrun := root_ensures (s := .ofTokens tokens) rfl hs
  -- the run stays closed from here on: nothing below may unfold it
  generalize root.run (.ofTokens tokens) = r at h hrun ⊢
  obtain ⟨hsteady, hroot⟩ := hrun
  obtain ⟨hread, hgood, hend⟩ := hroot (List.isEmpty_iff.mp h)
  exact ⟨r.2, hread, (hsteady.sane hs).rest_eq_nil hend, hgood⟩

/-- A kept token is one of those before the first end mark. -/
theorem mem_of_kept_mem {tokens : List Token} (h : (parse tokens).2.isEmpty) {t : Token}
    (ht : .kept t ∈ (parse tokens).1.written) : t ∈ tokens ∧ t.kind ≠ .eof := by
  obtain ⟨u, hread, hrest, -⟩ := reads_of_isEmpty h
  obtain ⟨ts, hts, hspells⟩ := hread.spelled
  rw [hrest, List.append_nil] at hts
  have hmem : t ∈ (State.ofTokens tokens).rest := hts ▸ hspells.mem_of_kept ht
  have hmem : t ∈ tokens.takeWhile (·.kind ≠ .eof) := hmem
  exact ⟨List.takeWhile_subset _ hmem, by simpa using List.mem_takeWhile_imp hmem⟩

/-- **Soundness.** If the parser reports nothing, the tokens up to the first end mark spell the
tree that it gives, and this tree is one of the language: nothing was skipped, repeated or moved. -/
theorem spells_written_parse (tokens : List Token) (h : (parse tokens).2.isEmpty) :
    Spells (parse tokens).1.written (tokens.takeWhile (·.kind ≠ .eof)) ∧
      (parse tokens).1.WellFormed maxNesting := by
  obtain ⟨t, hread, hrest, hgood⟩ := reads_of_isEmpty h
  obtain ⟨ts, hts, hspells⟩ := hread.spelled
  rw [hrest, List.append_nil] at hts
  have hts : tokens.takeWhile (·.kind ≠ .eof) = ts := hts
  exact ⟨hts ▸ hspells, hgood⟩

/-- Tokens with groups, a join and both uses of `AND`, and with more tokens after the end mark. -/
def sampleTokens : List Token :=
  [(.leftParen, "("), (.left, "LEFT"), (.identifier, "a"), (.dot, "."), (.count, "count"),
    (.between, "BETWEEN"), (.number, "1"), (.and, "AND"), (.number, "2.5"), (.or, "OR"),
    (.sum, "SUM"), (.leftParen, "("), (.identifier, "b"), (.rightParen, ")"), (.is, "IS"),
    (.not, "NOT"), (.null, "NULL"), (.rightParen, ")"), (.and, "AND"), (.identifier, "c"),
    (.isIn, "IN"), (.leftParen, "("), (.string, "'x'"), (.comma, ","), (.identifier, "a"),
    (.rightParen, ")"), (.having, "HAVING"), (.count, "count"), (.leftParen, "("), (.star, "*"),
    (.rightParen, ")"), (.greater, ">"), (.number, "0"), (.eof, ""), (.comma, ","), (.eof, "")].map
    fun (kind, lexeme) => ⟨.start, kind, lexeme⟩

theorem spells_written_parse_sampleTokens :
    (parse sampleTokens).2.isEmpty ∧
      Spells (parse sampleTokens).1.written (sampleTokens.takeWhile (·.kind ≠ .eof)) ∧
      (parse sampleTokens).1.WellFormed maxNesting :=
  ⟨by decide +kernel, spells_written_parse sampleTokens (by decide +kernel)⟩

end FilterQuery.Tree
