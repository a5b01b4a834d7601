import FilterQuery.Proofs.Tree.Written
import FilterQuery.Tree.Parse
import Mathlib.Data.List.TakeWhile

/-!
# Runs of a parser

What a production may do to the state of the parser, and how to reason about one.

* `Steady s t`: tokens were only taken from the front, complaints were only added, and as many
  groups are open as before.
* `Ensures p s post`: the production `p` is steady from `s`, and if the report is still empty
  afterwards, `post` holds of its result and of the state that it leaves.
* `Reads slots s t`: between the states `s` and `t` the parser took tokens that spell `slots`.

The equations `run_*` say what each step does from a state, `ofTokens_open` and `ofTokens_closed`
where a parser starts, and `Report.blame` what a report holds after several complaints.

An empty report at the end means an empty report all along, because reports only grow. So a proof
of `Ensures` goes through a production from front to end, and a path that complains ends at once
(`Ensures.of_complaint`).
-/

set_option autoImplicit false

namespace FilterQuery.Report

/-! ## Complaints one after the other -/

/-- The report after complaints about some tokens. -/
def blame (r : Report) (cs : List (Token × Complaint)) : Report :=
  cs.foldl (fun r c => r.addSyntax (.atToken c.1 (c.2.message c.1))) r

@[simp] theorem blame_nil (r : Report) : r.blame [] = r := rfl

theorem blame_append (r : Report) (cs ds : List (Token × Complaint)) :
    r.blame (cs ++ ds) = (r.blame cs).blame ds := List.foldl_append

/-- Complaints that are at places of their own, and not at those of the report, are all kept. -/
theorem problems_blame {r : Report} {cs : List (Token × Complaint)}
    (hapart : cs.Pairwise fun c d => c.1.offset ≠ d.1.offset)
    (hnew : ∀ c ∈ cs, r.hasSyntaxAt c.1.offset = false) :
    (r.blame cs).problems =
      r.problems ++ cs.map fun c => .grammatical (.atToken c.1 (c.2.message c.1)) := by
  induction cs generalizing r with
  | nil => simp
  | cons c cs ih =>
      obtain ⟨hc, hcs⟩ := List.pairwise_cons.mp hapart
      obtain ⟨hfree, hnew⟩ := List.forall_mem_cons.mp hnew
      have hadd : r.blame (c :: cs) =
          (r.add (.grammatical (.atToken c.1 (c.2.message c.1)))).blame cs := by
        have hfree : ¬ r.hasSyntaxAt c.1.offset = true := by simp [hfree]
        exact congrArg (blame · cs) (if_neg hfree)
      rw [hadd, ih hcs]
      · simp [add]
      · intro d hd
        have hplace : (c.1.offset == d.1.offset) = false := beq_eq_false_iff_ne.mpr (hc d hd)
        have hold := hnew d hd
        simp only [hasSyntaxAt] at hold ⊢
        simp [add, List.any_append, hold, Problem.isGrammaticalAt, SyntaxError.atToken, hplace]

end FilterQuery.Report

namespace FilterQuery.Parser

open FilterQuery.Tree

/-! ## Steps, run from a state -/

section

variable {α β : Type} (s : State)

theorem run_pure (a : α) : (pure a : Parser α).run s = (a, s) := rfl

theorem run_map (f : α → β) (p : Parser α) :
    (f <$> p).run s = (f (p.run s).1, (p.run s).2) := rfl

theorem run_sees (k : Kind) : (sees k).run s = (s.next.kind == k, s) := rfl

theorem run_eat (k : Kind) :
    (eat k).run s = if s.next.kind = k then (true, s.advance) else (false, s) := rfl

theorem run_expect (k : Kind) (what : Expectation) :
    (expect k what).run s =
      if s.next.kind = k then (true, s.advance)
      else (false, s.complain s.next (.expected what)) := by
  rw [expect, run_bind, run_eat]
  split
  · rfl
  · rfl

theorem run_chain (separator : Kind) (item : Parser (Option α)) (fuel : Nat) :
    (chain separator item (fuel + 1)).run s =
      if (item.run s).2.next.kind = separator then
        ((item.run s).1.toList ++ ((chain separator item fuel).run (item.run s).2.advance).1,
          ((chain separator item fuel).run (item.run s).2.advance).2)
      else ((item.run s).1.toList, (item.run s).2) := by
  rw [chain, run_bind, run_bind, run_eat]
  split
  · rfl
  · rfl

/-! The productions that look at the token at hand before they choose. -/

theorem run_skipUnexpected (stops : List Kind) :
    (skipUnexpected stops).run s =
      if s.next.kind = .eof ∨ s.next.kind ∈ stops then ((), s)
      else (skipUntil stops).run (s.complain s.next .unexpected) := rfl

theorem run_path :
    path.run s =
      (if (segments s.advance.rest).2.1 = true
        then pure (some (s.next :: (segments s.advance.rest).1))
        else complain (.expected .segment) >>= fun _ => pure none).run
      { s.advance with rest := (segments s.advance.rest).2.2 } := rfl

/-- The rest of a call after its path. -/
def callAfterPath (function : Token) : Option Tree.Path → Parser (Option Tree.Call)
  | some p => callEnd function (some p)
  | none => pure none

theorem run_callArgument (function : Token) :
    (callArgument function).run s =
      if s.next.kind = .star then
        if function.kind = .count then (callEnd function none).run s.advance
        else (badArgument (.starOutsideCount function.lexeme)).run s
      else if s.atCall then (badArgument .nestedCall).run s
      else if s.atPath then (path >>= callAfterPath function).run s
      else (badArgument (.expected .callArgument)).run s := by
  rw [run_bind]
  show callArgument function s = _
  rw [callArgument]
  -- the model matches on what the path gave, where this equation binds it
  rcases path.run s with ⟨_ | p, t⟩
  · rfl
  · rfl

theorem run_selectable (what : Expectation) :
    (selectable what).run s =
      if s.atCall then ((·.map .call) <$> call).run s
      else if s.atPath then ((·.map .path) <$> path).run s
      else (none, s.complain s.next (.expected what)) := rfl

theorem run_number :
    number.run s = (some (.number s.next),
      if inRange s.next.lexeme then s.advance
      else s.advance.complain s.next .outOfRange) := rfl

theorem run_value :
    value.run s =
      if s.next.kind = .string then (some (.string s.next), s.advance)
      else if s.next.kind = .number then number.run s
      else if s.atCall then ((·.map .call) <$> call).run s
      else if s.atPath then ((·.map .path) <$> path).run s
      else (none, s.complain s.next (.expected .value)) := rfl

theorem run_test :
    test.run s =
      if s.next.kind.isComparison then ((·.map (.compare s.next)) <$> value).run s.advance
      else if s.next.kind = .isIn then ((·.map .isIn) <$> list).run s.advance
      else if s.next.kind = .between then bounds.run s.advance
      else if s.next.kind = .is then nullTest.run s.advance
      else (none, s.complain s.next (.expected .operator)) := rfl

theorem run_joinWord :
    joinWord.run s =
      if s.next.kind = .left ∨ s.next.kind = .right then (some s.next, s.advance)
      else (none, s) := rfl

/-- A production run one group deeper. -/
def nested (inner : Parser α) : Parser α := do
  modify fun s => { s with depth := s.depth + 1 }
  let a ← inner
  modify fun s => { s with depth := s.depth - 1 }
  return a

theorem run_nested (inner : Parser α) :
    (nested inner).run s =
      ((inner.run { s with depth := s.depth + 1 }).1,
        { (inner.run { s with depth := s.depth + 1 }).2 with
          depth := (inner.run { s with depth := s.depth + 1 }).2.depth - 1 }) := rfl

theorem run_group (inner : Parser Disjunction) :
    (group inner).run s =
      (nested inner >>= fun d => expect .rightParen .groupEnd >>= fun b =>
        if b = true then pure (some (.group d)) else pure none).run s.advance := rfl

theorem run_primary (inner : Parser Disjunction) :
    (primary inner).run s =
      if s.next.kind = .leftParen then
        if s.depth = maxNesting then skipDeepGroup.run s else (group inner).run s
      else comparisonTerm.run s := rfl

end

theorem parse_eq (tokens : List Token) :
    parse tokens =
      ((root.run (.ofTokens tokens)).1, (root.run (.ofTokens tokens)).2.report) := by
  rw [parse]
  generalize root.run (.ofTokens tokens) = r
  rfl

section

variable {s : State}

theorem isSegment_iff (k : Kind) : isSegment k = true ↔ k = .identifier ∨ k.isKeyword := by
  simp [isSegment]

theorem atPath_iff : s.atPath = true ↔ s.next.kind = .identifier ∨ s.next.kind.isAggregate := by
  simp [State.atPath]

/-- No token of a kind that starts no path is at hand where a path starts. -/
theorem next_ne_of_atPath {k : Kind} (h : s.atPath = true)
    (hk : (k == .identifier || k.isAggregate) = false) : s.next.kind ≠ k := by
  rintro rfl
  exact Bool.false_ne_true (hk.symm.trans h)

theorem atCall_iff :
    s.atCall = true ↔ s.next.kind.isAggregate ∧ s.secondKind = .leftParen := by
  simp [State.atCall]

theorem inRange_iff (lexeme : String) : inRange lexeme = true ↔ InRange lexeme := by
  simp only [inRange, InRange]
  split
  · cases Text.readDecimal? lexeme with
    | none => simp
    | some x => simp
  · cases Text.readInteger lexeme with
    | ok n => simp
    | error e => simp

instance (lexeme : String) : Decidable (Tree.InRange lexeme) :=
  decidable_of_iff _ (inRange_iff lexeme)

instance : DecidablePred Slot.InRange
  | .kept t => inferInstanceAs (Decidable (t.kind = .number → Tree.InRange t.lexeme))
  | .mark _ => isTrue trivial

/-- A path or a call as a value. -/
def selectableValue : Selectable → Value
  | .path p => .path p
  | .call c => .call c

/-- A value that is no literal is read like what a comparison starts with. -/
theorem run_value_selectable (hstring : s.next.kind ≠ .string) (hnumber : s.next.kind ≠ .number) :
    value.run s = ((·.map selectableValue) <$> selectable .value).run s := by
  rw [run_value, if_neg hstring, if_neg hnumber, run_map (p := selectable .value), run_selectable]
  split
  · rw [run_map, run_map, Option.map_map]
    rfl
  split
  · rw [run_map, run_map, Option.map_map]
    rfl
  · rfl

end

/-! ## Where a parser starts -/

section

variable {ts : List Token}

theorem endAfter_kind (ts : List Token) : (endAfter ts).kind = .eof := by
  rw [endAfter]
  split
  · rfl
  · rfl

/-- Tokens with an end mark are read up to it. -/
theorem ofTokens_closed (hts : ∀ t ∈ ts, t.kind ≠ .eof) {e : Token} (he : e.kind = .eof)
    (more : List Token) : State.ofTokens (ts ++ e :: more) = ⟨ts, e, 0, .empty⟩ := by
  have hrest : (ts ++ e :: more).takeWhile (·.kind ≠ .eof) = ts := by
    rw [List.takeWhile_append_of_pos (by simpa using hts)]
    simp [he]
  have hstop : (ts ++ e :: more).find? (·.kind = .eof) = some e := by
    rw [List.find?_append, List.find?_eq_none.mpr (by simpa using hts)]
    simp [he]
  rw [State.ofTokens, hrest, hstop]
  rfl

/-- Tokens without an end mark get one. -/
theorem ofTokens_open (hts : ∀ t ∈ ts, t.kind ≠ .eof) :
    State.ofTokens ts = ⟨ts, endAfter ts, 0, .empty⟩ := by
  have hrest : ts.takeWhile (·.kind ≠ .eof) = ts :=
    List.takeWhile_eq_self_iff.mpr (by simpa using hts)
  have hstop : ts.find? (·.kind = .eof) = none := List.find?_eq_none.mpr (by simpa using hts)
  rw [State.ofTokens, hrest, hstop]
  rfl

end

/-! ## Sane states and steady steps -/

/-- No end mark is among the tokens that are left, and the end mark is one. -/
structure State.Sane (s : State) : Prop where
  stop : s.stop.kind = .eof
  rest : ∀ t ∈ s.rest, t.kind ≠ .eof

/-- What every production keeps. -/
structure Steady (s t : State) : Prop where
  rest : t.rest <:+ s.rest
  stop : t.stop = s.stop
  depth : t.depth = s.depth
  report : s.report.problems <+: t.report.problems

namespace Steady

theorem refl (s : State) : Steady s s := ⟨List.suffix_refl _, rfl, rfl, List.prefix_refl _⟩

theorem trans {s t u : State} (h₁ : Steady s t) (h₂ : Steady t u) : Steady s u :=
  ⟨h₂.rest.trans h₁.rest, h₂.stop.trans h₁.stop, h₂.depth.trans h₁.depth,
    h₁.report.trans h₂.report⟩

theorem sane {s t : State} (h : Steady s t) (hs : s.Sane) : t.Sane :=
  ⟨h.stop ▸ hs.stop, fun u hu => hs.rest u (h.rest.subset hu)⟩

/-- Nothing was reported before if nothing is reported after. -/
theorem clean {s t : State} (h : Steady s t) (ht : t.report.problems = []) :
    s.report.problems = [] := List.prefix_nil.mp (ht ▸ h.report)

/-- Leaving tokens out is steady. -/
theorem drop (s : State) {rest : List Token} (h : rest <:+ s.rest) :
    Steady s { s with rest } := ⟨h, rfl, rfl, List.prefix_refl _⟩

theorem advance (s : State) : Steady s s.advance := drop s (List.tail_suffix _)

theorem complain (s : State) (t : Token) (c : Complaint) : Steady s (s.complain t c) := by
  refine ⟨List.suffix_refl _, rfl, rfl, ?_⟩
  simp only [State.complain, Report.addSyntax]
  split
  · exact List.prefix_refl _
  · exact List.prefix_append _ _

end Steady

/-- A complaint leaves something in the report, even where it is not the first at its place. -/
theorem State.complain_report_ne_nil (s : State) (t : Token) (c : Complaint) :
    (s.complain t c).report.problems ≠ [] := by
  simp only [State.complain, Report.addSyntax]
  split
  · next h =>
      intro hnil
      simp [Report.hasSyntaxAt, hnil] at h
  · simp [Report.add]

/-! ## The rules for runs -/

/-- From a sane state `p` is steady, and if nothing is reported in the end, `post` holds. -/
def Ensures {α : Type} (p : Parser α) (s : State) (post : α → State → Prop) : Prop :=
  s.Sane →
    Steady s (p.run s).2 ∧ ((p.run s).2.report.problems = [] → post (p.run s).1 (p.run s).2)

namespace Ensures

variable {α β : Type} {p : Parser α} {s : State}

/-- The state may be taken to be sane. -/
theorem of_sane {post : α → State → Prop} (h : s.Sane → Ensures p s post) : Ensures p s post :=
  fun hs => h hs hs

theorem imp {P Q : α → State → Prop} (h : Ensures p s P) (hPQ : ∀ a t, P a t → Q a t) :
    Ensures p s Q :=
  fun hs => ⟨(h hs).1, fun hc => hPQ _ _ ((h hs).2 hc)⟩

theorem pure {a : α} {post : α → State → Prop} (h : post a s) : Ensures (Pure.pure a) s post :=
  fun _ => ⟨.refl s, fun _ => h⟩

theorem map {f : α → β} {post : β → State → Prop} (h : Ensures p s fun a t => post (f a) t) :
    Ensures (f <$> p) s post := h

/-- **Productions one after the other**: what the first one ensures may be used for the second. -/
theorem bind {f : α → Parser β} {P : α → State → Prop} {Q : β → State → Prop}
    (hp : Ensures p s P)
    (hf : ∀ a t, Steady s t → Ensures (f a) t fun b u => P a t → Q b u) :
    Ensures (p >>= f) s Q := by
  intro hs
  obtain ⟨h₁, hP⟩ := hp hs
  obtain ⟨h₂, hQ⟩ := hf (p.run s).1 (p.run s).2 h₁ (h₁.sane hs)
  exact ⟨h₁.trans h₂, fun hc => hQ hc (hP (h₂.clean hc))⟩

/-- A run that passes through the state `t`. -/
theorem through {q : Parser α} {t : State} {post : α → State → Prop} (h : Steady s t)
    (hrun : p.run s = q.run t) (hq : Ensures q t post) : Ensures p s post := by
  intro hs
  obtain ⟨h₁, hpost⟩ := hq (h.sane hs)
  rw [hrun]
  exact ⟨h.trans h₁, hpost⟩

/-- After a complaint nothing has to be shown but that the rest is steady. -/
theorem of_complaint {q : Parser α} {t : Token} {c : Complaint} {post : α → State → Prop}
    (hrun : p.run s = q.run (s.complain t c))
    (hq : Ensures q (s.complain t c) fun _ _ => True) : Ensures p s post := by
  intro hs
  have hc := Steady.complain s t c
  obtain ⟨h₁, -⟩ := hq (hc.sane hs)
  rw [hrun]
  exact ⟨hc.trans h₁, fun h => absurd (h₁.clean h) (State.complain_report_ne_nil s t c)⟩

end Ensures

/-! ## Reading slots -/

/-- Between the states `s` and `t` tokens were taken that spell `slots`, numbers in range. -/
structure Reads (slots : List Slot) (s t : State) : Prop where
  spelled : ∃ ts, s.rest = ts ++ t.rest ∧ Spells slots ts
  inRange : ∀ slot ∈ slots, slot.InRange

namespace Reads

theorem refl (s : State) : Reads [] s s := ⟨⟨[], rfl, .nil⟩, nofun⟩

theorem append {a b : List Slot} {s t u : State} (h₁ : Reads a s t) (h₂ : Reads b t u) :
    Reads (a ++ b) s u := by
  obtain ⟨ts, hs, hts⟩ := h₁.spelled
  obtain ⟨us, ht, hus⟩ := h₂.spelled
  refine ⟨⟨ts ++ us, ?_, List.rel_append hts hus⟩, ?_⟩
  · rw [hs, ht, List.append_assoc]
  · exact List.forall_mem_append.mpr ⟨h₁.inRange, h₂.inRange⟩

theorem cons {slot : Slot} {b : List Slot} {s t u : State} (h₁ : Reads [slot] s t)
    (h₂ : Reads b t u) : Reads (slot :: b) s u := h₁.append h₂

/-- One more part before parts that are joined. -/
theorem joined_cons {k : Kind} {part : List Slot} {parts : List (List Slot)} {s t u v : State}
    (h : Reads part s t) (hmark : Reads [.mark k] t u) (hparts : Reads (joined k parts) u v)
    (hne : parts ≠ []) : Reads (joined k (part :: parts)) s v := by
  obtain ⟨next, parts, rfl⟩ := List.exists_cons_of_ne_nil hne
  rw [joined_cons_cons]
  exact h.append (hmark.cons hparts)

theorem joined_one {k : Kind} {part : List Slot} {s t : State} (h : Reads part s t) :
    Reads (joined k [part]) s t := by
  rwa [joined_singleton]

/-- Every slot is a token taken. -/
theorem length_eq {slots : List Slot} {s t : State} (h : Reads slots s t) :
    s.rest.length = slots.length + t.rest.length := by
  obtain ⟨ts, hs, hts⟩ := h.spelled
  rw [hs, List.length_append, hts.length_eq]

end Reads

/-- The token at hand, unless it is the end mark, is the first of those that are left. -/
theorem State.rest_eq_cons {s : State} (hs : s.Sane) (h : s.next.kind ≠ .eof) :
    s.rest = s.next :: s.rest.tail := by
  cases hr : s.rest with
  | nil => exact absurd (by simpa [State.next, hr] using hs.stop) h
  | cons t ts => simp [State.next, hr]

theorem Reads.mark {s : State} {k : Kind} (hs : s.Sane) (h : s.next.kind = k) (hk : k ≠ .eof) :
    Reads [.mark k] s s.advance :=
  ⟨⟨[s.next], State.rest_eq_cons hs (h ▸ hk), .cons h .nil⟩, by simp [Slot.InRange]⟩

theorem Reads.kept {s : State} (hs : s.Sane) (h : s.next.kind ≠ .eof)
    (hr : s.next.kind = .number → InRange s.next.lexeme) : Reads [.kept s.next] s s.advance :=
  ⟨⟨[s.next], State.rest_eq_cons hs h, .cons rfl .nil⟩, by simpa [Slot.InRange] using hr⟩

/-- The result of a production that may fail: it read the slots of a value that is as it should
be. -/
def Produces {α : Type} (written : α → List Slot) (good : α → Prop) (s : State) (o : Option α)
    (t : State) : Prop := ∃ a, o = some a ∧ Reads (written a) s t ∧ good a

/-! ## Steps -/

section

variable {α : Type} {s : State} {k : Kind} {post : α → State → Prop}

/-- After `eat` the parser is past a token of the kind, or where it was. -/
theorem Ensures.eat_bind {f : Bool → Parser α} (hk : k ≠ .eof)
    (hyes : s.next.kind = k → Reads [.mark k] s s.advance → Ensures (f true) s.advance post)
    (hno : s.next.kind ≠ k → Ensures (f false) s post) : Ensures (eat k >>= f) s post := by
  refine .of_sane fun hs => ?_
  by_cases h : s.next.kind = k
  · refine .through (Steady.advance s) ?_ (hyes h (.mark hs h hk))
    rw [run_bind, run_eat, if_pos h]
  · refine .through (Steady.refl s) ?_ (hno h)
    rw [run_bind, run_eat, if_neg h]

theorem Ensures.sees_bind {f : Bool → Parser α}
    (hyes : s.next.kind = k → Ensures (f true) s post)
    (hno : s.next.kind ≠ k → Ensures (f false) s post) : Ensures (sees k >>= f) s post := by
  by_cases h : s.next.kind = k
  · refine .through (Steady.refl s) ?_ (hyes h)
    rw [run_bind, run_sees, beq_iff_eq.mpr h]
  · refine .through (Steady.refl s) ?_ (hno h)
    rw [run_bind, run_sees, beq_eq_false_iff_ne.mpr h]

/-- After `expect` the parser is past a token of the kind, or has complained. -/
theorem Ensures.expect_bind {f : Bool → Parser α} {what : Expectation} (hk : k ≠ .eof)
    (hyes : Reads [.mark k] s s.advance → Ensures (f true) s.advance post)
    (hno : ∀ t, Ensures (f false) t fun _ _ => True) : Ensures (expect k what >>= f) s post := by
  refine .of_sane fun hs => ?_
  by_cases h : s.next.kind = k
  · refine .through (Steady.advance s) ?_ (hyes (.mark hs h hk))
    rw [run_bind, run_expect, if_pos h]
  · refine .of_complaint (t := s.next) (c := .expected what) ?_ (hno _)
    rw [run_bind, run_expect, if_neg h]

theorem skipUntil_ensures (stops : List Kind) (s : State) :
    Ensures (skipUntil stops) s fun _ _ => True :=
  fun _ => ⟨Steady.drop s (List.dropWhile_suffix _), fun _ => trivial⟩

theorem afterGroup_suffix (depth : Nat) (ts : List Token) : afterGroup depth ts <:+ ts := by
  fun_induction afterGroup depth ts with
  | case1 => exact List.suffix_refl _
  | case2 depth t ts _ ih => exact ih.trans (List.suffix_cons t ts)
  | case3 t ts => exact List.suffix_cons t ts
  | case4 t ts _ _ depth ih => exact ih.trans (List.suffix_cons t ts)
  | case5 depth t ts _ _ ih => exact ih.trans (List.suffix_cons t ts)

theorem skipGroup_ensures (s : State) : Ensures skipGroup s fun _ _ => True :=
  fun _ => ⟨Steady.drop s (afterGroup_suffix 0 s.rest), fun _ => trivial⟩

/-- Without a complaint there is nothing unexpected, and nothing is skipped. -/
theorem skipUnexpected_ensures (stops : List Kind) (s : State) :
    Ensures (skipUnexpected stops) s fun _ t =>
      t = s ∧ (s.next.kind = .eof ∨ s.next.kind ∈ stops) := by
  by_cases h : s.next.kind = .eof ∨ s.next.kind ∈ stops
  -- only without this is a token skipped, and then there is a complaint
  · refine .through (q := Pure.pure ()) (Steady.refl s) ?_ (.pure ⟨rfl, h⟩)
    rw [run_skipUnexpected, if_pos h, run_pure]
  · refine .of_complaint (t := s.next) (c := .unexpected) ?_ (skipUntil_ensures stops _)
    rw [run_skipUnexpected, if_neg h]

end

end FilterQuery.Parser
