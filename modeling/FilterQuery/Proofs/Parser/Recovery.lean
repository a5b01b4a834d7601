import FilterQuery.Proofs.Parser.Confined
import FilterQuery.Proofs.Report.Merged

/-!
# Going on after an error

After a comparison that fails the parser goes on at the next logical operator, so that one bad
comparison does not hide the next. It does not do so where a comparison is complete and tokens are
left behind it (`Overruns`): these are skipped together with the rest of the condition.

So a stretch that is bad by itself is complained about where it stands in a condition, at one of
its tokens or at the token right behind it, if and only if no stretch before it overruns
(`Tree.hasSyntaxAt_parse_iff`).
-/

set_option autoImplicit false

namespace FilterQuery.Report

/-- After some complaints there are errors at the places of these and of those before. -/
theorem hasSyntaxAt_blame {r : Report} {cs : List (Token × Complaint)} {n : Nat} :
    (r.blame cs).hasSyntaxAt n = true ↔
      r.hasSyntaxAt n = true ∨ ∃ c ∈ cs, c.1.offset = n := by
  induction cs generalizing r with
  | nil => simp
  | cons c cs ih =>
      show (blame (r.addSyntax _) cs).hasSyntaxAt n = true ↔ _
      rw [ih, hasSyntaxAt_addSyntax, or_assoc]
      simp [SyntaxError.atToken]

/-- There is something in a report exactly if there was a complaint. -/
theorem blame_empty_problems_eq_nil {cs : List (Token × Complaint)} :
    (blame .empty cs).problems = [] ↔ cs = [] := by
  refine ⟨fun h => ?_, ?_⟩
  · match cs, h with
    | [], _ => rfl
    | c :: cs, h =>
        have hc : (blame .empty (c :: cs)).hasSyntaxAt c.1.offset = true :=
          hasSyntaxAt_blame.mpr (.inr ⟨c, .head cs, rfl⟩)
        simp [hasSyntaxAt, h] at hc
  · rintro rfl
    rfl

end FilterQuery.Report

namespace FilterQuery.Parser

open FilterQuery.Tree

/-! ## Stretches one after the other -/

/-- A stretch of a condition: one token or more, and none that leaves it. -/
structure IsStretch (w : List Token) : Prop extends Plain w where
  nonempty : w ≠ []

/-- The tokens before an end mark are stretches, each with the token right behind it: a logical
operator, or the end mark. -/
inductive Stretches (stop : Token) : List Token → List (List Token × Token) → Prop
  | last {w : List Token} (hw : IsStretch w) : Stretches stop w [(w, stop)]
  | cons {w rest : List Token} {t : Token} {parts : List (List Token × Token)} (hw : IsStretch w)
      (ht : t.kind = .and ∨ t.kind = .or) (h : Stretches stop rest parts) :
      Stretches stop (w ++ t :: rest) ((w, t) :: parts)

namespace Stretches

variable {stop : Token} {rest : List Token} {parts : List (List Token × Token)}

theorem isStretch (h : Stretches stop rest parts) : ∀ part ∈ parts, IsStretch part.1 := by
  induction h with
  | last hw => exact List.forall_mem_singleton.mpr hw
  | cons hw _ _ ih => exact List.forall_mem_cons.mpr ⟨hw, ih⟩

/-- Between stretches there is no clause keyword, and no end mark. -/
theorem kinds (h : Stretches stop rest parts) :
    ∀ t ∈ rest, t.kind ∉ [Kind.eof, .group, .having] := by
  induction h with
  | last hw => exact fun t ht => hw.kind_not_mem ht (by decide)
  | cons hw ht _ ih =>
      refine List.forall_mem_append.mpr ⟨fun t ht => hw.kind_not_mem ht (by decide),
        List.forall_mem_cons.mpr ⟨?_, ih⟩⟩
      rcases ht with hkind | hkind <;> simp [hkind]

theorem length_pos (h : Stretches stop rest parts) : 0 < parts.length := by
  cases h <;> exact Nat.succ_pos _

/-- There are no more stretches than tokens. -/
theorem length_le (h : Stretches stop rest parts) : parts.length ≤ rest.length := by
  induction h with
  | last hw => exact List.length_pos_of_ne_nil hw.nonempty
  | cons _ _ _ ih => simp; omega

end Stretches

/-! ## What is said about stretches -/

section

variable (o : List Token → Outcome (Option Primary))

/-- What is said about a stretch: the complaints of its term, and one about the first token that the
term leaves behind. -/
def heard (part : List Token × Token) : List (Token × Complaint) :=
  (o part.1).told part.2 ++ ((o part.1).left.head?.map (·, .unexpected)).toList

/-- What is said about stretches, up to the first one of which something is left. -/
def reported : List (List Token × Token) → List (Token × Complaint)
  | [] => []
  | part :: parts => heard o part ++ if (o part.1).left = [] then reported parts else []

variable {o}

/-- A complaint about a stretch is about one of its tokens or about the one behind it. -/
theorem mem_of_mem_heard {term : Parser (Option Primary)} {part : List Token × Token}
    (ho : Confined part.1 term part.1 (o part.1)) :
    ∀ c ∈ heard o part, c.1 ∈ part.1 ++ [part.2] := by
  refine List.forall_mem_append.mpr ⟨List.forall_mem_map.mpr fun c hc => ?_, fun c hc => ?_⟩
  · cases hplace : c.1 with
    | none => simp
    | some t => exact List.mem_append_left _ (ho.about c hc t hplace)
  · obtain ⟨t, ht, rfl⟩ := Option.map_eq_some_iff.mp (Option.mem_toList.mp hc)
    exact List.mem_append_left _ (ho.left.subset (List.mem_of_mem_head? ht))

theorem exists_of_mem_reported {term : Parser (Option Primary)} {parts : List (List Token × Token)}
    (ho : ∀ part ∈ parts, Confined part.1 term part.1 (o part.1)) {c : Token × Complaint}
    (hc : c ∈ reported o parts) : ∃ part ∈ parts, c.1 ∈ part.1 ++ [part.2] := by
  induction parts with
  | nil => cases hc
  | cons part parts ih =>
      obtain ⟨hpart, hparts⟩ := List.forall_mem_cons.mp ho
      rw [reported, List.mem_append] at hc
      rcases hc with hc | hc
      · exact ⟨part, .head _, mem_of_mem_heard hpart c hc⟩
      · split at hc
        · obtain ⟨other, hother, hmem⟩ := ih hparts hc
          exact ⟨other, .tail _ hother, hmem⟩
        · cases hc

/-- Whether something is said about a stretch does not depend on what stands behind it. -/
theorem heard_eq_nil_iff {w : List Token} (t u : Token) :
    heard o (w, t) = [] ↔ heard o (w, u) = [] := by
  simp [heard, Outcome.told]

/-- **Which stretches are blamed.** If no two stretches share a place, then there is a complaint at
the place of a stretch exactly if something is said about it and nothing is left of those before
it. -/
theorem exists_reported_iff {term : Parser (Option Primary)} {part : List Token × Token}
    {before after : List (List Token × Token)}
    (ho : ∀ p ∈ before ++ part :: after, Confined p.1 term p.1 (o p.1))
    (hapart : (before ++ part :: after).Pairwise fun p q =>
      ∀ t ∈ p.1 ++ [p.2], ∀ u ∈ q.1 ++ [q.2], t.offset ≠ u.offset) :
    (∃ t ∈ part.1 ++ [part.2], ∃ c ∈ reported o (before ++ part :: after), c.1.offset = t.offset) ↔
      heard o part ≠ [] ∧ ∀ p ∈ before, (o p.1).left = [] := by
  induction before with
  | nil =>
      obtain ⟨hlater, -⟩ := List.pairwise_cons.mp hapart
      obtain ⟨hpart, hafter⟩ := List.forall_mem_cons.mp ho
      refine ⟨fun ⟨t, ht, c, hc, hplace⟩ => ⟨?_, nofun⟩, fun ⟨hheard, _⟩ => ?_⟩
      · rcases List.mem_append.mp hc with hc | hc
        · exact List.ne_nil_of_mem hc
        · split at hc
          · obtain ⟨other, hother, hmem⟩ := exists_of_mem_reported hafter hc
            exact absurd hplace.symm (hlater other hother t ht c.1 hmem)
          · cases hc
      · obtain ⟨c, hc⟩ := List.exists_mem_of_ne_nil _ hheard
        exact ⟨c.1, mem_of_mem_heard hpart c hc, c, List.mem_append_left _ hc, rfl⟩
  | cons first before ih =>
      obtain ⟨hlater, hapart⟩ := List.pairwise_cons.mp hapart
      obtain ⟨hfirst, ho⟩ := List.forall_mem_cons.mp ho
      have hother : ∀ t ∈ part.1 ++ [part.2], ∀ c ∈ heard o first, c.1.offset ≠ t.offset :=
        fun t ht c hc => hlater part (by simp) c.1 (mem_of_mem_heard hfirst c hc) t ht
      rw [List.forall_mem_cons, and_left_comm, ← ih ho hapart, List.cons_append, reported]
      refine ⟨fun ⟨t, ht, c, hc, hplace⟩ => ?_, fun ⟨hleft, t, ht, c, hc, hplace⟩ => ?_⟩
      · rcases List.mem_append.mp hc with hc | hc
        · exact absurd hplace (hother t ht c hc)
        · split at hc
          · next hleft => exact ⟨hleft, t, ht, c, hc, hplace⟩
          · cases hc
      · rw [if_pos hleft]
        exact ⟨t, ht, c, List.mem_append_right _ hc, hplace⟩

/-! ## Running over stretches -/

/-- What is left behind the terms is blamed and skipped. -/
theorem run_skipUnexpected_clause {s : State} (hstop : s.stop.kind = .eof)
    (hrest : ∀ t ∈ s.rest, t.kind ∉ [Kind.eof, .group, .having]) :
    (skipUnexpected [.group, .having]).run s =
      ((), { s with
        rest := []
        report := s.report.blame (s.rest.head?.map (·, .unexpected)).toList }) := by
  obtain ⟨rest, stop, depth, report⟩ := s
  rw [run_skipUnexpected]
  cases rest with
  | nil => exact if_pos (.inl hstop)
  | cons t rest =>
      have hkind := hrest t (.head _)
      have hskip : (t :: rest).dropWhile (fun u => u.kind ∉ [Kind.group, .having]) = [] := by
        refine List.dropWhile_eq_nil_iff.mpr fun u hu => decide_eq_true ?_
        exact mt (List.mem_cons_of_mem _) (hrest u hu)
      rw [if_neg (by simpa [State.next, not_or] using hkind)]
      show ((), (State.mk ((t :: rest).dropWhile _) _ _ _)) = _
      rw [hskip]
      rfl

theorem chain_state {α : Type} (separator : Kind) (item : Parser (Option α)) (fuel : Nat)
    (s : State) :
    ((chain separator item (fuel + 1)).run s).2 =
      if (item.run s).2.next.kind = separator
        then ((chain separator item fuel).run (item.run s).2.advance).2
        else (item.run s).2 := by
  rw [run_chain]
  split
  · rfl
  · rfl

/-- The state after the rest of the conjunctions, where one of them has ended. -/
def afterConjunction (item : Parser (Option Conjunction)) (fuel : Nat) (s : State) : State :=
  if s.next.kind = .or then ((chain .or item fuel).run s.advance).2 else s

/-- Where a stretch is the last one, or something of it is left, the rest of the condition is
skipped. -/
theorem run_stretch_end {term : Parser (Option Primary)} {item : Parser (Option Conjunction)}
    {w tail : List Token} {s : State} (hw : Plain w) (ho : Confined w term w (o w))
    (hs : s.Before w tail) (htail : ∀ t ∈ tail, t.kind ∉ [Kind.eof, .group, .having])
    (hend : (o w).left ≠ [] ∨ tail = []) (inner outer : Nat) :
    ((skipUnexpected [.group, .having]).run
        (afterConjunction item outer ((chain .and term (inner + 1)).run s).2)).2 =
      { s with
        rest := []
        report := s.report.blame (heard o (w, tail.headD s.stop)) } := by
  have hhead : ((o w).left ++ tail).head? = (o w).left.head? := by
    cases hleft : (o w).left with
    | nil => rw [hend.resolve_left (absurd hleft), List.append_nil]
    | cons t left => rfl
  have hleft : Plain (o w).left := hw.suffix ho.left
  have hrest : ∀ t ∈ (o w).left ++ tail, t.kind ∉ [Kind.eof, .group, .having] :=
    List.forall_mem_append.mpr ⟨fun t ht => hleft.kind_not_mem ht (by decide), htail⟩
  have hnext : ∀ report,
      (State.mk ((o w).left ++ tail) s.stop s.depth report).next.kind ∉ [Kind.and, .or] := by
    intro report hkind
    cases hfirst : (o w).left with
    | nil =>
        rw [hfirst, hend.resolve_left (absurd hfirst)] at hkind
        simp [State.next, hs.stop] at hkind
    | cons t left =>
        have ht : t ∈ (o w).left := hfirst ▸ List.mem_cons_self
        rw [hfirst] at hkind
        exact hleft.kind_not_mem ht (by decide : [Kind.and, .or] ⊆ leaving) hkind
  simp only [List.mem_cons, List.not_mem_nil, or_false, not_or] at hnext
  rw [chain_state, ho.run s tail hs, if_neg (hnext _).1, afterConjunction, if_neg (hnext _).2]
  have hskip := run_skipUnexpected_clause
    (s := ⟨(o w).left ++ tail, s.stop, s.depth, s.report.blame ((o w).told (tail.headD s.stop))⟩)
    hs.stop hrest
  dsimp only
  rw [hskip]
  simp only [hhead, heard, Report.blame_append]

/-- A term that leaves nothing of its stretch ends at the operator behind it. -/
theorem run_term_operator {term : Parser (Option Primary)} {w rest : List Token} {t : Token}
    {s : State} (ho : Confined w term w (o w)) (hs : s.Before w (t :: rest))
    (hleft : (o w).left = []) :
    term.run s = ((o w).result,
      ⟨t :: rest, s.stop, s.depth, s.report.blame (heard o (w, t))⟩) := by
  rw [ho.run s (t :: rest) hs]
  simp [heard, hleft]

/-- A disjunction from some place on: a conjunction, and then the others. -/
theorem chain_conjunctions_state (term : Parser (Option Primary)) (fuel : Nat) (s : State) :
    ((chain .or (some <$> separated .and term) (fuel + 1)).run s).2 =
      afterConjunction (some <$> separated .and term) fuel
        ((chain .and term (s.rest.length + 1)).run s).2 := chain_state _ _ _ _

/-- **Running over stretches.** The terms of a condition are complained about one after the other,
up to the first one that leaves something of its stretch behind. -/
theorem run_stretches {term : Parser (Option Primary)} {rest : List Token}
    {parts : List (List Token × Token)} {stop : Token} (hstop : stop.kind = .eof)
    (h : Stretches stop rest parts) (ho : ∀ p ∈ parts, Confined p.1 term p.1 (o p.1))
    (inner outer depth : Nat) (report : Report) (hinner : parts.length ≤ inner)
    (houter : parts.length ≤ outer + 1) :
    ((skipUnexpected [.group, .having]).run
        (afterConjunction (some <$> separated .and term) outer
          ((chain .and term inner).run ⟨rest, stop, depth, report⟩).2)).2 =
      ⟨[], stop, depth, report.blame (reported o parts)⟩ := by
  induction h generalizing inner outer report with
  | @last w hw =>
      obtain ⟨inner, rfl⟩ := Nat.exists_eq_add_of_le' hinner
      have hs : State.Before ⟨w, stop, depth, report⟩ w [] :=
        ⟨(List.append_nil w).symm, hstop, nofun⟩
      rw [List.length_singleton, run_stretch_end hw.toPlain (ho _ (.head _)) hs nofun (.inr rfl)]
      simp [reported]
  | @cons w rest t parts hw ht h ih =>
      obtain ⟨hfirst, ho⟩ := List.forall_mem_cons.mp ho
      obtain ⟨inner, rfl⟩ : ∃ n, inner = n + 1 :=
        Nat.exists_eq_add_one.mpr (Nat.lt_of_lt_of_le (Nat.succ_pos _) hinner)
      have hs : State.Before ⟨w ++ t :: rest, stop, depth, report⟩ w (t :: rest) :=
        ⟨rfl, hstop, by simpa using ht⟩
      have htail : ∀ u ∈ t :: rest, u.kind ∉ [Kind.eof, .group, .having] :=
        List.forall_mem_cons.mpr ⟨by rcases ht with hkind | hkind <;> simp [hkind], h.kinds⟩
      by_cases hleft : (o w).left = []
      · have hterm := run_term_operator hfirst hs hleft
        have hreported : reported o ((w, t) :: parts) = heard o (w, t) ++ reported o parts := by
          rw [reported, if_pos hleft]
        have hnext : ∀ report, (State.mk (t :: rest) stop depth report).next = t := fun _ => rfl
        rw [chain_state, hterm, hreported, Report.blame_append]
        dsimp only
        rw [hnext]
        -- the term ends at the operator, and the parser goes on behind it
        rcases ht with hand | hor
        · rw [if_pos hand]
          exact ih ho inner outer _ (Nat.le_of_succ_le_succ hinner) (Nat.le_of_succ_le houter)
        · have hlength := h.length_pos
          simp only [List.length_cons] at houter
          obtain ⟨outer, rfl⟩ : ∃ n, outer = n + 1 := Nat.exists_eq_add_one.mpr (by omega)
          rw [if_neg (by simp [hor]), afterConjunction, hnext, if_pos hor,
            chain_conjunctions_state]
          exact ih ho _ outer _ (Nat.le_succ_of_le h.length_le) (Nat.le_of_succ_le_succ houter)
      · rw [run_stretch_end hw.toPlain hfirst hs htail (.inl hleft)]
        simp [reported, hleft]

/-- At the end there is no clause. -/
theorem run_groupByClause_end {s : State} (h : s.next.kind = .eof) :
    groupByClause.run s = (none, s) := by
  rw [groupByClause, run_bind, run_sees, h]
  rfl

theorem run_havingClause_end {s : State} (h : s.next.kind = .eof) :
    havingClause.run s = (none, s) := by
  have hnext : ¬ s.next.kind = .having := by simp [h]
  rw [havingClause, run_bind, run_eat, if_neg hnext]
  rfl

/-- **The report of a condition of stretches.** -/
theorem report_of_stretches {rest : List Token} {parts : List (List Token × Token)} {stop : Token}
    (hstop : stop.kind = .eof) (h : Stretches stop rest parts)
    (ho : ∀ p ∈ parts, Confined p.1 (primary (disjunctionWithin maxNesting)) p.1 (o p.1)) :
    (root.run ⟨rest, stop, 0, .empty⟩).2.report = .blame .empty (reported o parts) := by
  have hdisjunction : (disjunction.run ⟨rest, stop, 0, .empty⟩).2 =
      afterConjunction (some <$> separated .and (primary (disjunctionWithin maxNesting)))
        rest.length ((chain .and (primary (disjunctionWithin maxNesting)) (rest.length + 1)).run
          ⟨rest, stop, 0, .empty⟩).2 := chain_conjunctions_state _ rest.length _
  have hcondition := run_stretches hstop h ho (rest.length + 1) rest.length 0 .empty
    (Nat.le_succ_of_le h.length_le) (Nat.le_succ_of_le h.length_le)
  rw [← hdisjunction] at hcondition
  have hend : (State.mk [] stop 0 (.blame .empty (reported o parts))).next.kind = .eof := hstop
  rw [root, run_bind, run_bind, hcondition, run_bind, run_groupByClause_end hend, run_bind,
    run_havingClause_end hend]
  rfl

end

/-! ## The tokens of a condition -/

/-- No token of a list with growing offsets is behind its end. -/
theorem offset_le_endAfter {ts : List Token} (h : ts.Pairwise fun t u => t.offset < u.offset) :
    ∀ t ∈ ts, t.offset ≤ (endAfter ts).offset := by
  intro t ht
  obtain ⟨front, last, hts⟩ := (List.eq_nil_or_concat ts).resolve_left (List.ne_nil_of_mem ht)
  rw [List.concat_eq_append] at hts
  subst hts
  have hend : (endAfter (front ++ [last])).offset = last.offset + last.lexeme.utf8ByteSize := by
    simp [endAfter, Token.eof]
  obtain ⟨-, -, hlast⟩ := List.pairwise_append.mp h
  rw [hend]
  rcases List.mem_append.mp ht with ht | ht
  · exact Nat.le_add_right_of_le (hlast t ht last (.head _)).le
  · rw [List.mem_singleton.mp ht]
    exact Nat.le_add_right _ _

theorem ofTokens_append {ts : List Token} {mark : Option Token} (hts : ∀ t ∈ ts, t.kind ≠ .eof)
    (hmark : ∀ e ∈ mark, e.kind = .eof) :
    State.ofTokens (ts ++ mark.toList) = ⟨ts, mark.getD (endAfter ts), 0, .empty⟩ := by
  cases mark with
  | none => simpa using ofTokens_open hts
  | some e => exact ofTokens_closed hts (hmark e rfl) []

/-- Stretches with the logical operators in front of them. -/
def joinedAfter (after : List (Token × List Token)) : List Token :=
  after.flatMap fun part => part.1 :: part.2

/-- The tokens of a condition: some stretches, the stretch `w`, and other stretches. -/
def stream (before : List (List Token × Token)) (w : List Token)
    (after : List (Token × List Token)) : List Token :=
  (before.flatMap fun part => part.1 ++ [part.2]) ++ (w ++ joinedAfter after)

/-- The stretch `w` and the others, each with the token right behind it. -/
def partsFrom (stop : Token) : List Token → List (Token × List Token) → List (List Token × Token)
  | w, [] => [(w, stop)]
  | w, (t, next) :: after => (w, t) :: partsFrom stop next after

/-- A comparison is complete, and tokens of the stretch are left behind it. -/
def Overruns (w : List Token) : Prop :=
  (comparison.run (.ofTokens w)).1.isSome ∧ (comparison.run (.ofTokens w)).2.rest ≠ []

instance (w : List Token) : Decidable (Overruns w) := inferInstanceAs (Decidable (_ ∧ _))

section

variable {stop : Token} {before : List (List Token × Token)} {w rest : List Token}
  {after : List (Token × List Token)} {parts : List (List Token × Token)}

theorem partsFrom_eq (stop : Token) (w : List Token) (after : List (Token × List Token)) :
    ∃ others, partsFrom stop w after = (w, (joinedAfter after).headD stop) :: others := by
  cases after with
  | nil => exact ⟨[], rfl⟩
  | cons part after => exact ⟨_, rfl⟩

theorem stretches_partsFrom (hw : IsStretch w)
    (hafter : ∀ part ∈ after, (part.1.kind = .and ∨ part.1.kind = .or) ∧ IsStretch part.2) :
    Stretches stop (w ++ joinedAfter after) (partsFrom stop w after) := by
  induction after generalizing w with
  | nil =>
      rw [joinedAfter, List.flatMap_nil, List.append_nil]
      exact .last hw
  | cons part after ih =>
      obtain ⟨⟨ht, hnext⟩, hafter⟩ := List.forall_mem_cons.mp hafter
      exact .cons hw ht (ih hnext hafter)

theorem Stretches.append (h : Stretches stop rest parts)
    (hbefore : ∀ part ∈ before, IsStretch part.1 ∧ (part.2.kind = .and ∨ part.2.kind = .or)) :
    Stretches stop ((before.flatMap fun part => part.1 ++ [part.2]) ++ rest) (before ++ parts) := by
  induction before with
  | nil => exact h
  | cons part before ih =>
      obtain ⟨⟨hw, ht⟩, hbefore⟩ := List.forall_mem_cons.mp hbefore
      have hcons := Stretches.cons hw ht (ih hbefore)
      simpa using hcons

/-- What belongs to a stretch does not stand before all of the tokens. -/
theorem Stretches.exists_offset_le (h : Stretches stop rest parts)
    (hstop : ∀ t ∈ rest, t.offset ≤ stop.offset) :
    ∀ part ∈ parts, ∀ u ∈ part.1 ++ [part.2], ∃ t ∈ rest, t.offset ≤ u.offset := by
  induction h with
  | last hw =>
      obtain ⟨t, ht⟩ := List.exists_mem_of_ne_nil _ hw.nonempty
      refine List.forall_mem_singleton.mpr (List.forall_mem_append.mpr ⟨fun u hu => ?_, ?_⟩)
      · exact ⟨u, hu, Nat.le_refl _⟩
      · exact List.forall_mem_singleton.mpr ⟨t, ht, hstop t ht⟩
  | @cons w rest t parts _ _ _ ih =>
      obtain ⟨-, hrest⟩ := List.forall_mem_append.mp hstop
      obtain ⟨-, hrest⟩ := List.forall_mem_cons.mp hrest
      have hfront : w ++ [t] ⊆ w ++ t :: rest := by simp
      refine List.forall_mem_cons.mpr ⟨fun u hu => ⟨u, hfront hu, Nat.le_refl _⟩, ?_⟩
      · intro part hpart u hu
        obtain ⟨v, hv, hle⟩ := ih hrest part hpart u hu
        exact ⟨v, by simp [hv], hle⟩

/-- **Stretches do not share a place**, where offsets grow. -/
theorem Stretches.apart (h : Stretches stop rest parts)
    (hoffsets : rest.Pairwise fun t u => t.offset < u.offset)
    (hstop : ∀ t ∈ rest, t.offset ≤ stop.offset) :
    parts.Pairwise fun p q =>
      ∀ t ∈ p.1 ++ [p.2], ∀ u ∈ q.1 ++ [q.2], t.offset ≠ u.offset := by
  induction h with
  | last hw => exact List.pairwise_singleton _ _
  | @cons w rest t parts _ _ h ih =>
      rw [List.append_cons] at hoffsets hstop
      obtain ⟨-, hrest, hacross⟩ := List.pairwise_append.mp hoffsets
      obtain ⟨-, hstop⟩ := List.forall_mem_append.mp hstop
      refine List.pairwise_cons.mpr ⟨fun q hq v hv u hu => ?_, ih hrest hstop⟩
      obtain ⟨x, hx, hle⟩ := h.exists_offset_le hstop q hq u hu
      exact ((hacross v hv x hx).trans_le hle).ne

/-- A stretch overruns exactly if its term leaves something behind. -/
theorem overruns_iff {o : Outcome (Option Comparison)} (hw : IsStretch w)
    (ho : Confined w comparison w o) : Overruns w ↔ o.asTerm.left ≠ [] := by
  have heof : ∀ t ∈ w, t.kind ≠ .eof := fun t ht hkind =>
    hw.kinds t ht (hkind ▸ by decide)
  have hbefore : State.Before ⟨w, endAfter w, 0, .empty⟩ w [] :=
    ⟨(List.append_nil w).symm, endAfter_kind w, nofun⟩
  rw [Overruns, ofTokens_open heof, ho.run _ _ hbefore, List.append_nil]
  rcases o with ⟨_ | c, left, complaints⟩
  · simp [Outcome.asTerm]
  · simp [Outcome.asTerm]

/-- Every stretch has an outcome. -/
theorem exists_outcomes : ∃ o : List Token → Outcome (Option Comparison),
    ∀ w, IsStretch w → Confined w comparison w (o w) := by
  have : Nonempty (Outcome (Option Comparison)) := ⟨none, [], []⟩
  choose! o ho using fun (w : List Token) (hw : IsStretch w) =>
    stays_comparison hw.toPlain w (List.suffix_refl w)
  exact ⟨o, ho⟩

end

end FilterQuery.Parser

namespace FilterQuery.Tree

open FilterQuery.Parser

/-- What a parse reports on stretches. -/
theorem report_parse_of_stretches {o : List Token → Outcome (Option Primary)} {ts : List Token}
    {parts : List (List Token × Token)} (mark : Option Token) (hmark : ∀ e ∈ mark, e.kind = .eof)
    (h : Stretches (mark.getD (endAfter ts)) ts parts)
    (ho : ∀ p ∈ parts, Confined p.1 (Parser.primary (disjunctionWithin maxNesting)) p.1 (o p.1)) :
    (parse (ts ++ mark.toList)).2 = .blame .empty (reported o parts) := by
  have hkinds : ∀ t ∈ ts, t.kind ≠ .eof := fun t ht hkind =>
    h.kinds t ht (by simp [hkind])
  have hstop : (mark.getD (endAfter ts)).kind = .eof := by
    cases mark with
    | none => exact endAfter_kind ts
    | some e => exact hmark e rfl
  rw [parse_eq, ofTokens_append hkinds hmark, ← report_of_stretches hstop h ho]

/-- What a parse reports on one stretch. -/
theorem problems_parse_eq_nil_iff {o : List Token → Outcome (Option Primary)} {w : List Token}
    (hw : IsStretch w) (ho : Confined w (Parser.primary (disjunctionWithin maxNesting)) w (o w))
    (next : Token) : (parse w).2.problems = [] ↔ heard o (w, next) = [] := by
  have hreport := report_parse_of_stretches none nofun (.last hw) (List.forall_mem_singleton.mpr ho)
  have hreported : reported o [(w, endAfter w)] = heard o (w, endAfter w) := by simp [reported]
  rw [Option.toList_none, List.append_nil, Option.getD_none, hreported] at hreport
  rw [hreport, Report.blame_empty_problems_eq_nil, heard_eq_nil_iff _ next]

/-- **Recovery.** Let stretches be joined by logical operators, with growing offsets. There is a
syntax error at a token of one of them, or at the token right behind it, exactly if the stretch is
bad by itself and none of those before it overruns. -/
theorem hasSyntaxAt_parse_iff (before : List (List Token × Token)) (w : List Token)
    (after : List (Token × List Token)) (mark : Option Token)
    (hbefore : ∀ part ∈ before, IsStretch part.1 ∧ (part.2.kind = .and ∨ part.2.kind = .or))
    (hw : IsStretch w)
    (hafter : ∀ part ∈ after, (part.1.kind = .and ∨ part.1.kind = .or) ∧ IsStretch part.2)
    (hmark : ∀ e ∈ mark, e.kind = .eof)
    (hoffsets : (stream before w after ++ mark.toList).Pairwise fun t u => t.offset < u.offset) :
    (∃ t ∈ w ++ [(joinedAfter after).headD (mark.getD (endAfter (stream before w after)))],
        (parse (stream before w after ++ mark.toList)).2.hasSyntaxAt t.offset = true) ↔
      (parse w).2.problems ≠ [] ∧ ∀ part ∈ before, ¬ Overruns part.1 := by
  obtain ⟨o, ho⟩ := exists_outcomes
  have hterm : ∀ v, IsStretch v →
      Confined v (Parser.primary (disjunctionWithin maxNesting)) v (o v).asTerm := fun v hv =>
    confined_primary hv.toPlain (List.suffix_refl v) (ho v hv) _
  have hstop : ∀ t ∈ stream before w after,
      t.offset ≤ (mark.getD (endAfter (stream before w after))).offset := by
    obtain ⟨hsorted, -, hbehind⟩ := List.pairwise_append.mp hoffsets
    cases mark with
    | none => exact offset_le_endAfter hsorted
    | some e => exact fun t ht => (hbehind t ht e (.head _)).le
  generalize hstopEq : mark.getD (endAfter (stream before w after)) = stop at hstop ⊢
  have hstretches : Stretches stop (stream before w after) (before ++ partsFrom stop w after) :=
    (stretches_partsFrom hw hafter).append hbefore
  obtain ⟨others, hparts⟩ := partsFrom_eq stop w after
  rw [hparts] at hstretches
  have hconfined := fun p hp => hterm p.1 (hstretches.isStretch p hp)
  have hapart := hstretches.apart (List.pairwise_append.mp hoffsets).1 hstop
  have hreport : (parse (stream before w after ++ mark.toList)).2 =
      .blame .empty (reported (fun v => (o v).asTerm)
        (before ++ (w, (joinedAfter after).headD stop) :: others)) :=
    report_parse_of_stretches mark hmark (by rwa [hstopEq]) hconfined
  have hempty : ∀ n, Report.hasSyntaxAt .empty n = false := fun _ => rfl
  simp only [hreport, Report.hasSyntaxAt_blame, hempty, Bool.false_eq_true, false_or]
  rw [exists_reported_iff hconfined hapart]
  refine and_congr (not_congr ?_) (forall₂_congr fun part hpart => ?_)
  · exact (problems_parse_eq_nil_iff hw (hterm w hw) _).symm
  · have hstretch := (hbefore part hpart).1
    rw [overruns_iff hstretch (ho part.1 hstretch), not_not]

/-- A token of a text without line breaks. -/
def tokenAt (offset : Nat) (kind : Kind) (lexeme : String) : Token :=
  ⟨⟨offset, 1, offset + 1⟩, kind, lexeme⟩

/-- `c =`, which lacks a value. -/
def cutStretch (offset : Nat) : List Token :=
  [tokenAt offset .identifier "c", tokenAt (offset + 2) .equal "="]

theorem isStretch_cutStretch (offset : Nat) : IsStretch (cutStretch offset) := by
  refine ⟨⟨?_, ?_⟩, List.cons_ne_nil _ _⟩
  · simp [cutStretch, tokenAt, leaving]
  · simp [cutStretch, tokenAt]

/-- Both errors of `c = AND c = OR c =` are found. -/
theorem hasSyntaxAt_parse_iff_cutStretches :
    IsStretch (cutStretch 0) ∧ IsStretch (cutStretch 8) ∧ IsStretch (cutStretch 15) ∧
      ∃ t ∈ cutStretch 8 ++ [tokenAt 12 .or "OR"],
        (parse (stream [(cutStretch 0, tokenAt 4 .and "AND")] (cutStretch 8)
          [(tokenAt 12 .or "OR", cutStretch 15)] ++ [.eof ⟨18, 1, 19⟩])).2.hasSyntaxAt t.offset =
            true := by
  refine ⟨isStretch_cutStretch 0, isStretch_cutStretch 8, isStretch_cutStretch 15, ?_⟩
  refine (hasSyntaxAt_parse_iff [(cutStretch 0, tokenAt 4 .and "AND")] (cutStretch 8)
    [(tokenAt 12 .or "OR", cutStretch 15)] (some (.eof ⟨18, 1, 19⟩)) ?_ (isStretch_cutStretch 8)
    ?_ ?_ ?_).mpr ⟨?_, ?_⟩
  · exact List.forall_mem_singleton.mpr ⟨isStretch_cutStretch 0, .inl rfl⟩
  · exact List.forall_mem_singleton.mpr ⟨.inr rfl, isStretch_cutStretch 15⟩
  · simp [Token.eof]
  · decide
  · decide +kernel
  · decide +kernel

/-- `a = 1 b`, a complete comparison and a token behind it. -/
def crowdedStretch : List Token :=
  [tokenAt 0 .identifier "a", tokenAt 2 .equal "=", tokenAt 4 .number "1",
    tokenAt 6 .identifier "b"]

/-- In `a = 1 b AND c =` the error of the second comparison is hidden by that of the first. -/
theorem hasSyntaxAt_parse_crowded :
    IsStretch crowdedStretch ∧ IsStretch (cutStretch 12) ∧
      ((stream [(crowdedStretch, tokenAt 8 .and "AND")] (cutStretch 12) []).Pairwise
        fun t u => t.offset < u.offset) ∧
      (parse (cutStretch 12)).2.problems ≠ [] ∧
      ∀ t ∈ cutStretch 12 ++
          [endAfter (stream [(crowdedStretch, tokenAt 8 .and "AND")] (cutStretch 12) [])],
        (parse (stream [(crowdedStretch, tokenAt 8 .and "AND")] (cutStretch 12) [])).2.hasSyntaxAt
          t.offset = false := by
  refine ⟨⟨⟨?_, ?_⟩, List.cons_ne_nil _ _⟩, isStretch_cutStretch 12, ?_, ?_, ?_⟩
  · simp [crowdedStretch, tokenAt, leaving]
  · simp [crowdedStretch, tokenAt]
  · decide
  · decide +kernel
  · decide +kernel

end FilterQuery.Tree
