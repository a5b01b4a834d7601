import FilterQuery.Proofs.Parser.Finds
import FilterQuery.Proofs.Parser.Skipped

/-!
# What the parser finds

Every grammatical tree is found again in every way to write it, without the groups that nest too
deep, and the complaints are those about its places where something is wrong (`finds_root`). Each
production gets one statement, by `Finds` or by `Accepts`. In a tree of the language nothing is
wrong, so it is found as it is and nothing is reported (`parse_of_spells`).
-/

set_option autoImplicit false

namespace FilterQuery.Parser

open FilterQuery.Tree

/-! ## Paths and calls -/

/-- Segments are found up to the first token that is no dot. -/
theorem segments_append {path : Tree.Path} {ts tail : List Token}
    (hts : Spells (Path.segmentsWritten path) ts)
    (hpath : ∀ u ∈ path, u.kind = .identifier ∨ u.kind.isKeyword)
    (htail : headKind tail ≠ .dot) : segments (ts ++ tail) = (path, true, tail) := by
  induction path generalizing ts with
  | nil =>
      obtain rfl := spells_nil_iff.mp hts
      match tail, htail with
      | [], _ => rfl
      | [t], htail => simp [segments, show t.kind ≠ .dot from htail]
      | t :: u :: tail, htail => simp [segments, show t.kind ≠ .dot from htail]
  | cons u path ih =>
      rw [Path.segmentsWritten_cons] at hts
      obtain ⟨dot, rest, rfl, hdot, hrest⟩ := spells_mark_iff.mp hts
      obtain ⟨front, rfl, hfront⟩ := spells_kept_iff.mp hrest
      obtain ⟨hu, hpath⟩ := List.forall_mem_cons.mp hpath
      have hseg : isSegment u.kind = true := (isSegment_iff _).mpr hu
      simp [segments, hdot, hseg, ih hfront hpath]

theorem path_faultless {p : Tree.Path} (hp : Path.Grammatical p) :
    ∀ slot ∈ Path.written p, slot.Faultless := by
  have hkinds : ∀ t ∈ p, t.kind ≠ .number := by
    match p, hp with
    | t :: path, ⟨ht, hpath⟩ =>
        refine List.forall_mem_cons.mpr ⟨fun hnumber => ?_, fun u hu hnumber => ?_⟩
        · simp [hnumber, Kind.isAggregate] at ht
        · simpa [hnumber, Kind.isKeyword, Kind.isAggregate] using hpath u hu
  exact forall_mem_joined (.mark .dot) <| List.forall_mem_map.mpr fun t ht =>
    List.forall_mem_singleton.mpr (.kept (hkinds t ht))

theorem accepts_path {p : Tree.Path} (hp : Path.Grammatical p) (depth : Nat) :
    Accepts path (some p) (Path.written p) {.dot} depth := by
  refine .of_faultless (path_faultless hp) ?_
  intro ts tail stop report hts _ htail
  match p, hp with
  | t :: path, ⟨_, hpath⟩ =>
      rw [Path.written_cons] at hts
      obtain ⟨rest, rfl, hrest⟩ := spells_kept_iff.mp hts
      have hsegments : segments (rest ++ tail) = (path, true, tail) :=
        segments_append hrest hpath (by simpa using htail)
      rw [run_path]
      -- the first token is taken, and the segments are those of the tokens behind it
      show (if (segments (rest ++ tail)).2.1 = true
        then pure (some (t :: (segments (rest ++ tail)).1))
        else complain (.expected .segment) >>= fun _ => pure none : Parser _).run
          ⟨(segments (rest ++ tail)).2.2, stop, depth, report⟩ = _
      rw [hsegments]
      rfl

/-- A path that no parenthesis follows looks like a path and not like a call. -/
theorem path_atHand (stop : Token) (depth : Nat) (report : Report) {p : Tree.Path}
    (hp : Path.Grammatical p) {ts tail : List Token} (hts : Spells (Path.written p) ts)
    (htail : headKind tail ≠ .leftParen) :
    (State.mk (ts ++ tail) stop depth report).atPath = true ∧
      (State.mk (ts ++ tail) stop depth report).atCall = false := by
  match p, hp with
  | t :: path, ⟨ht, _⟩ =>
      rw [Path.written_cons] at hts
      obtain ⟨rest, rfl, hrest⟩ := spells_kept_iff.mp hts
      refine ⟨atPath_iff.mpr ht, ?_⟩
      refine Bool.eq_false_iff.mpr fun hcall => ?_
      -- behind the first token stands a dot, or what follows the path
      have hparen := (atCall_iff.mp hcall).2
      rw [List.cons_append, secondKind_cons, headKind_append hrest] at hparen
      cases path with
      | nil => exact htail hparen
      | cons u path => cases hparen

theorem accepts_callEnd (function : Token) (argument : Option Tree.Path) (depth : Nat) :
    Accepts (callEnd function argument) (some ⟨function, argument⟩) [.mark .rightParen] ∅
      depth :=
  (accepts_expect .rightParen .callEnd).bind_closed .pure

theorem accepts_callArgument {function : Token} {argument : Option Tree.Path}
    (hcall : (Call.mk function argument).Grammatical) (depth : Nat) :
    Accepts (callArgument function) (some ⟨function, argument⟩)
      (Call.argumentWritten argument ++ [.mark .rightParen]) ∅ depth := by
  match argument, hcall with
  | none, ⟨_, hcount⟩ =>
      refine accepts_mark ?_ (accepts_callEnd function none depth)
      intro s hs
      rw [run_callArgument, if_pos hs, if_pos hcount]
  | some p, ⟨_, hp⟩ =>
      refine .of_run (q := path >>= callAfterPath function) ?_ ?_
      · intro ts tail stop report hts _ _
        obtain ⟨t₁, t₂, rfl, h₁, h₂⟩ := spells_append_iff.mp hts
        rw [List.append_assoc]
        -- the path is followed by a closing parenthesis, which is neither a dot nor an opening one
        have hclose : headKind (t₂ ++ tail) ≠ .leftParen := by
          rw [headKind_append h₂]
          exact nofun
        obtain ⟨hpath, hcall⟩ := path_atHand stop depth report hp h₁ hclose
        rw [run_callArgument, if_neg (next_ne_of_atPath hpath rfl), if_neg (by simp [hcall]),
          if_pos hpath]
      · exact (accepts_path hp depth).bind (accepts_callEnd function (some p) depth)
          (by simp [firstKind, Slot.kind])

theorem accepts_call {c : Tree.Call} (hc : c.Grammatical) (depth : Nat) :
    Accepts call (some c) c.written ∅ depth := by
  have hargument : Accepts (expect .leftParen .callStart >>= fun b =>
      if b = true then callArgument c.function else pure none) (some c)
      (.mark .leftParen :: (Call.argumentWritten c.argument ++ [.mark .rightParen])) ∅ depth :=
    (accepts_expect .leftParen .callStart).bind_closed (accepts_callArgument hc depth)
  have hname : c.function.kind ≠ .number := by
    intro hnumber
    simpa [hnumber, Kind.isAggregate] using hc.1
  exact (accepts_advance hname).bind_closed hargument

/-- A call that is written starts with the name of a function and a parenthesis. -/
theorem call_atHand {c : Tree.Call} (hc : c.Grammatical) {ts tail : List Token} {stop : Token}
    {depth : Nat} {report : Report} (hts : Spells c.written ts) :
    (State.mk (ts ++ tail) stop depth report).atCall = true := by
  obtain ⟨rest, rfl, hrest⟩ := spells_kept_iff.mp hts
  obtain ⟨paren, rest, rfl, hparen, _⟩ := spells_mark_iff.mp hrest
  exact atCall_iff.mpr ⟨hc.1, hparen⟩

theorem accepts_selectable (what : Expectation) {v : Selectable} (hv : v.Grammatical)
    (depth : Nat) : Accepts (selectable what) (some v) v.written {.dot, .leftParen} depth := by
  cases v with
  | path p =>
      refine .of_run (q := (·.map Selectable.path) <$> path) ?_
        ((accepts_path hv depth).map.mono (by simp))
      intro ts tail stop report hts _ htail
      have hparen : headKind tail ≠ .leftParen := fun h => htail (by simp [h])
      obtain ⟨hpath, hcall⟩ := path_atHand stop depth report hv hts hparen
      rw [run_selectable, if_neg (by simp [hcall]), if_pos hpath]
  | call c =>
      refine .of_run (q := (·.map Selectable.call) <$> call) ?_
        ((accepts_call hv depth).map.mono (by simp))
      intro ts tail stop report hts _ _
      rw [run_selectable, if_pos (call_atHand hv hts)]

/-! ## Values -/

/-- A path or a call starts with a token that a path may start with. -/
theorem selectable_written_eq_cons {v : Selectable} (hv : v.Grammatical) :
    ∃ t slots, v.written = .kept t :: slots ∧ (t.kind = .identifier ∨ t.kind.isAggregate) := by
  match v, hv with
  | .path (t :: path), ⟨ht, _⟩ => exact ⟨t, _, Path.written_cons t path, ht⟩
  | .call c, hc => exact ⟨c.function, _, rfl, .inr hc.1⟩

theorem value_written_eq_cons {v : Value} (hv : v.Grammatical) :
    ∃ t slots, v.written = .kept t :: slots ∧ t.kind ≠ .rightParen := by
  have key : ∀ w : Selectable, w.Grammatical →
      ∃ t slots, w.written = .kept t :: slots ∧ t.kind ≠ .rightParen := by
    intro w hw
    obtain ⟨t, slots, hwritten, ht⟩ := selectable_written_eq_cons hw
    refine ⟨t, slots, hwritten, fun hparen => ?_⟩
    simp [hparen, Kind.isAggregate] at ht
  match v, hv with
  | .path p, hp => exact key (.path p) hp
  | .call c, hc => exact key (.call c) hc
  | .string t, ht => exact ⟨t, [], rfl, by rw [show t.kind = .string from ht]; decide⟩
  | .number t, ht => exact ⟨t, [], rfl, by rw [show t.kind = .number from ht]; decide⟩

theorem selectable_atPath {v : Selectable} (hv : v.Grammatical) {ts tail : List Token}
    {stop : Token} {depth : Nat} {report : Report} (hts : Spells v.written ts) :
    (State.mk (ts ++ tail) stop depth report).atPath = true := by
  obtain ⟨t, slots, hwritten, ht⟩ := selectable_written_eq_cons hv
  rw [hwritten] at hts
  obtain ⟨rest, rfl, _⟩ := spells_kept_iff.mp hts
  exact atPath_iff.mpr ht

theorem accepts_value_selectable {v : Selectable} (hv : v.Grammatical) (depth : Nat) :
    Accepts value (some (selectableValue v)) v.written {.dot, .leftParen} depth := by
  refine .of_run (q := (·.map selectableValue) <$> selectable .value) ?_
    (accepts_selectable .value hv depth).map
  intro ts tail stop report hts _ _
  have hpath : (State.mk (ts ++ tail) stop depth report).atPath = true :=
    selectable_atPath hv hts
  exact run_value_selectable (next_ne_of_atPath hpath rfl) (next_ne_of_atPath hpath rfl)

theorem accepts_value {v : Value} (hv : v.Grammatical) (depth : Nat) :
    Accepts value (some v) v.written {.dot, .leftParen} depth := by
  cases v with
  | path p => exact accepts_value_selectable (v := .path p) hv depth
  | call c => exact accepts_value_selectable (v := .call c) hv depth
  | string t =>
      have hkind : t.kind ≠ .number := by simp [show t.kind = .string from hv]
      refine .of_faultless (List.forall_mem_singleton.mpr (.kept hkind)) ?_
      intro ts tail stop report hts _ _
      obtain ⟨rest, rfl, hrest⟩ := spells_kept_iff.mp hts
      obtain rfl := spells_nil_iff.mp hrest
      rw [run_value, if_pos (by exact hv)]
      rfl
  | number t =>
      have hv : t.kind = .number := hv
      intro hdepth ts tail stop report hts _ _
      obtain ⟨rest, rfl, hrest⟩ := spells_kept_iff.mp hts
      obtain rfl := spells_nil_iff.mp hrest
      -- a number out of range is kept after the complaint
      have hfaults : faults (placed depth (Value.number t).written) [t] =
          if inRange t.lexeme then [] else [(t, .outOfRange)] := by
        have hplace := faults_cons ⟨.kept t, depth, false⟩ [] t []
        rw [Place.fault?_number hv hdepth] at hplace
        refine hplace.trans ?_
        split <;> rfl
      rw [run_value, if_neg (by simp [State.next, hv]), if_pos (by exact hv), run_number, hfaults]
      change (_, if inRange t.lexeme = true then _ else _) = _
      split <;> rfl

theorem accepts_values {vs : List Value} (hne : vs ≠ []) (hvs : ∀ v ∈ vs, v.Grammatical)
    (depth fuel : Nat) (hfuel : vs.length ≤ fuel) :
    Accepts (values fuel) (some vs) (joined .comma (vs.map Value.written))
      {.comma, .dot, .leftParen} depth := by
  rw [Accepts, placed_joined, List.map_map]
  refine finds_repeated (fun _ => rfl) (fun fuel v => ?_) (fun fuel v vs places stops hvs => ?_)
    (by simp) hne (fun v hv => accepts_value (hvs v hv) depth) fuel hfuel
  · exact (accepts_eat_not .comma).bind_pure rfl
  · exact Finds.bind_closed (accepts_eat .comma) (hvs.bind_pure rfl)

theorem accepts_list {vs : List Value} (h : (Test.isIn vs).Grammatical) (depth : Nat) :
    Accepts list (some vs)
      (.mark .leftParen :: (joined .comma (vs.map Value.written) ++ [.mark .rightParen])) ∅
      depth := by
  obtain ⟨hne, hvs⟩ := h
  have hvalues : Accepts (fun s => (values (s.rest.length + 1)).run s) (some vs)
      (joined .comma (vs.map Value.written)) {.comma, .dot, .leftParen} depth := by
    intro hdepth ts tail stop report hts
    have hfuel : vs.length ≤ (ts ++ tail).length + 1 := by
      rw [slotsOf_placed] at hts
      simpa using length_le_of_spells_joined hts tail
    exact accepts_values hne hvs depth _ hfuel hdepth ts tail stop report hts
  -- no value starts with a closing parenthesis, so the list does not look empty
  have hfirst : ∀ k, firstKind (joined .comma (vs.map Value.written) ++ [.mark .rightParen]) k ∉
      ({.rightParen} : Set Kind) := by
    intro k
    match vs, hne, hvs with
    | v :: vs, _, hvs =>
        obtain ⟨t, slots, hwritten, ht⟩ := value_written_eq_cons (hvs v List.mem_cons_self)
        obtain ⟨rest, hrest⟩ := joined_cons_eq .comma v.written (vs.map Value.written)
        rw [List.map_cons, hrest, hwritten]
        simpa [firstKind, Slot.kind] using ht
  refine (accepts_expect .leftParen .listStart).bind_closed ?_
  refine (accepts_sees_not .rightParen).bind ?_ fun k _ => hfirst k
  refine hvalues.bind ?_ (by simp [firstKind, Slot.kind])
  exact (accepts_expect .rightParen .listEnd).bind_pure rfl

/-! ## Comparisons -/

theorem accepts_bounds {low high : Value} (hlow : low.Grammatical) (hhigh : high.Grammatical)
    (depth : Nat) :
    Accepts bounds (some (.between low high)) (low.written ++ .mark .and :: high.written)
      {.dot, .leftParen} depth := by
  refine (accepts_value hlow depth).bind ?_ (by simp [firstKind, Slot.kind])
  refine (accepts_expect .and .boundsAnd).bind_closed ?_
  exact (accepts_value hhigh depth).bind_pure rfl

theorem accepts_nullTest (depth : Nat) :
    Accepts nullTest (some .null) [.mark .null] ∅ depth ∧
      Accepts nullTest (some .notNull) [.mark .not, .mark .null] ∅ depth := by
  constructor
  · refine (accepts_eat_not .not).bind ?_ (by simp [firstKind, Slot.kind])
    exact (accepts_expect .null .null).bind_pure rfl
  · refine (accepts_eat .not).bind_closed ?_
    exact (accepts_expect .null .null).bind_pure rfl

theorem accepts_test {test : Tree.Test} (h : test.Grammatical) (depth : Nat) :
    Accepts Parser.test (some test) test.written {.dot, .leftParen} depth := by
  cases test with
  | compare operator value =>
      obtain ⟨hoperator, hvalue⟩ := h
      have hkind : operator.kind ≠ .number := by
        intro hnumber
        simp [hnumber, Kind.isComparison] at hoperator
      refine accepts_kept hkind (q := (·.map (.compare operator)) <$> Parser.value) ?_
        (accepts_value hvalue depth).map
      intro s hs
      rw [run_test, hs, if_pos hoperator]
  | isIn values =>
      refine accepts_mark (q := (·.map .isIn) <$> list) ?_
        ((accepts_list h depth).map.mono (by simp))
      intro s hs
      simp [run_test, hs, Kind.isComparison]
  | between low high =>
      refine accepts_mark (q := bounds) ?_ (accepts_bounds h.1 h.2 depth)
      intro s hs
      simp [run_test, hs, Kind.isComparison]
  | null =>
      refine accepts_mark (q := nullTest) ?_ ((accepts_nullTest depth).1.mono (by simp))
      intro s hs
      simp [run_test, hs, Kind.isComparison]
  | notNull =>
      refine accepts_mark (q := nullTest) ?_ ((accepts_nullTest depth).2.mono (by simp))
      intro s hs
      simp [run_test, hs, Kind.isComparison]

/-- A test starts with an operator or a word, so it never looks like more of the left side. -/
theorem test_firstKind {test : Tree.Test} (h : test.Grammatical) (k : Kind) :
    firstKind test.written k ∉ ({.dot, .leftParen} : Set Kind) := by
  cases test with
  | compare operator value =>
      obtain ⟨hoperator, _⟩ := h
      rintro (hk | hk)
      · simp [show operator.kind = .dot from hk, Kind.isComparison] at hoperator
      · simp [show operator.kind = .leftParen from hk, Kind.isComparison] at hoperator
  | isIn | between | null | notNull => simp [Test.written, firstKind, Slot.kind]

theorem accepts_joinWord {join : Option Token}
    (h : ∀ t ∈ join, t.kind = .left ∨ t.kind = .right) (depth : Nat) :
    Accepts joinWord join (join.toList.map .kept) {.left, .right} depth := by
  cases join with
  | none =>
      refine .of_faultless nofun ?_
      intro ts tail stop report hts hstop htail
      obtain rfl := spells_nil_iff.mp hts
      have hne : ¬((State.mk tail stop depth report).next.kind = .left ∨
          (State.mk tail stop depth report).next.kind = .right) := by
        rw [next_kind hstop]
        exact htail
      rw [List.nil_append, run_joinWord, if_neg hne]
  | some t =>
      have hjoin : t.kind = .left ∨ t.kind = .right := h t rfl
      have hkind : t.kind ≠ .number := by
        intro hnumber
        simp [hnumber] at hjoin
      refine accepts_kept hkind (q := pure (some t)) ?_ .pure
      intro s hs
      rw [run_joinWord, hs, if_pos hjoin, run_pure]

theorem accepts_comparison {c : Comparison} (h : c.Grammatical) (depth : Nat) :
    Accepts comparison (some c) c.written {.dot, .leftParen} depth := by
  obtain ⟨hjoin, hleft, htest⟩ := h
  refine (accepts_joinWord hjoin depth).bind ?_ ?_
  · refine (accepts_selectable .operand hleft depth).bind ?_ fun k _ => test_firstKind htest k
    exact (accepts_test htest depth).bind_pure rfl
  · -- without a keyword the left side comes first, and it starts with neither of the two
    obtain ⟨t, slots, hwritten, ht⟩ := selectable_written_eq_cons hleft
    intro k _
    rw [hwritten]
    rintro (hk | hk)
    · simp [show t.kind = .left from hk, Kind.isAggregate] at ht
    · simp [show t.kind = .right from hk, Kind.isAggregate] at ht

/-- A comparison does not look like a group. -/
theorem comparison_firstKind {c : Comparison} (h : c.Grammatical) (k : Kind) :
    firstKind c.written k ≠ .leftParen := by
  obtain ⟨hjoin, hleft, -⟩ := h
  match c, hjoin, hleft with
  | ⟨some t, _, _⟩, hjoin, _ =>
      intro hk
      simp [show t.kind = .leftParen from hk] at hjoin
  | ⟨none, left, test⟩, _, hleft =>
      obtain ⟨t, slots, hwritten, ht⟩ := selectable_written_eq_cons hleft
      rw [Comparison.written, hwritten]
      intro hk
      simp [show t.kind = .leftParen from hk, Kind.isAggregate] at ht

/-! ## Conditions -/

section

variable {inner : Parser Disjunction} {stops : Set Kind} {depth : Nat}

theorem finds_nested {d : Disjunction} {places : List Place} (hdepth : depth < maxNesting)
    (h : Finds inner d places stops (depth + 1)) : Finds (nested inner) d places stops depth := by
  intro _ ts tail stop report hts hstop htail
  rw [run_nested, h hdepth ts tail stop report hts hstop htail]
  rfl

theorem finds_group {d found : Disjunction} (hdepth : depth < maxNesting)
    (h : Finds inner found (Disjunction.places d (depth + 1)) stops (depth + 1))
    (hstops : .rightParen ∉ stops) :
    Finds (group inner) (some (.group found)) (Primary.places (.group d) depth) ∅ depth := by
  have hopening : Place.fault? ⟨.mark .leftParen, depth, true⟩ = none :=
    if_neg (Nat.ne_of_lt hdepth)
  rw [Primary.places_group]
  refine finds_cons hopening (fun s _ => run_group s inner) ?_
  refine (finds_nested hdepth h).bind ?_ fun _ _ => hstops
  exact (accepts_expect .rightParen .groupEnd).bind_pure rfl

/-- A group in `maxNesting` others is skipped, with a complaint about its parenthesis. -/
theorem finds_skipDeepGroup {d : Disjunction} (hd : Disjunction.Grammatical d) :
    Finds skipDeepGroup none (Primary.places (.group d) maxNesting) ∅ maxNesting := by
  intro _ ts tail stop report hts _ _
  rw [Primary.slotsOf_places, Primary.written_group] at hts
  obtain ⟨t, rest, rfl, -, hrest⟩ := spells_mark_iff.mp hts
  have hinner : ∀ place ∈ Disjunction.places d (maxNesting + 1) ++
      placed maxNesting [.mark .rightParen], place.fault? = none :=
    List.forall_mem_append.mpr ⟨Disjunction.fault?_of_deep d,
      forall_mem_placed.mpr (List.forall_mem_singleton.mpr rfl)⟩
  have hfaults : faults (Primary.places (.group d) maxNesting) (t :: rest) = [(t, .tooDeep)] := by
    rw [Primary.places_group, faults_cons, faults_eq_nil hinner]
    rfl
  -- the tokens up to the parenthesis that closes the group are left out
  have hskip : skipDeepGroup.run ⟨t :: rest ++ tail, stop, maxNesting, report⟩ =
      (none, ⟨afterGroup 0 (rest ++ tail), stop, maxNesting, report.blame [(t, .tooDeep)]⟩) := rfl
  rw [hskip, hfaults, afterGroup_of_spells hd hrest]

/-- A comparison is found as a term. -/
theorem accepts_primary {c : Comparison} (hc : c.Grammatical) (depth : Nat) :
    Accepts (primary inner) (some (.comparison c)) c.written {.dot, .leftParen} depth := by
  have hterm : Accepts comparisonTerm (some (.comparison c)) c.written {.dot, .leftParen} depth :=
    (accepts_comparison hc depth).bind_pure rfl
  refine .of_run ?_ hterm
  intro ts tail stop report hts hstop _
  have hnext : (State.mk (ts ++ tail) stop depth report).next.kind ≠ .leftParen := by
    rw [next_kind hstop, headKind_append hts]
    exact comparison_firstKind hc _
  rw [run_primary, if_neg hnext]

/-- A group is found as a term, or is skipped if it is too deep. -/
theorem finds_primary_group {d : Disjunction} {p : Parser (Option Primary)} {found : Option Primary}
    (hp : Finds p found (Primary.places (.group d) depth) ∅ depth)
    (hrun : ∀ s : State, s.next.kind = .leftParen → s.depth = depth →
      (primary inner).run s = p.run s) :
    Finds (primary inner) found (Primary.places (.group d) depth) {.dot, .leftParen} depth := by
  refine .of_run ?_ (hp.mono (Set.empty_subset _))
  intro ts tail stop report hts _ _
  rw [Primary.slotsOf_places, Primary.written_group] at hts
  obtain ⟨t, rest, rfl, ht, _⟩ := spells_mark_iff.mp hts
  exact hrun _ ht rfl

/-- Conjunctions are found if their terms are. -/
theorem finds_conjunctions {n : Nat} {d : Disjunction} (hd : Disjunction.Grammatical d)
    (h : ∀ p : Primary, p.Grammatical →
      Finds (primary inner) (p.within n) (p.places depth) {.dot, .leftParen} depth) :
    Finds (separated .or (some <$> conjunction inner)) (Disjunction.within n d)
      (Disjunction.places d depth) {.or, .and, .dot, .leftParen} depth := by
  have hconjunction : ∀ c ∈ d, Finds (some <$> conjunction inner)
      (some (c.filterMap (Primary.within n))) (Conjunction.places c depth)
      {.and, .dot, .leftParen} depth := by
    intro c hc
    have hand : Kind.and ∉ ({.dot, .leftParen} : Set Kind) := by simp
    exact (finds_separated (hd.terms c hc) hand fun p hp => h p (hd.inner c hc p hp)).map
  have hor : Kind.or ∉ ({.and, .dot, .leftParen} : Set Kind) := by simp
  have hfound := finds_separated hd.nonempty hor hconjunction
  rwa [List.filterMap_eq_map'] at hfound

/-- **Conditions.** Groups are found up to the `n`-th level inside each other, and those deeper are
left out. -/
theorem finds_disjunctionWithin (n depth : Nat) (hn : depth + n = maxNesting) {d : Disjunction}
    (hd : Disjunction.Grammatical d) :
    Finds (disjunctionWithin (n + 1)) (Disjunction.within n d) (Disjunction.places d depth)
      {.or, .and, .dot, .leftParen} depth := by
  induction n generalizing depth d with
  | zero =>
      refine finds_conjunctions hd fun p hp => ?_
      cases hp with
      | comparison hc =>
          rw [Primary.places_comparison]
          exact accepts_primary hc depth
      | @group d hne hterms hinner =>
          obtain rfl : depth = maxNesting := hn
          refine finds_primary_group (finds_skipDeepGroup ⟨hne, hterms, hinner⟩)
            fun s hs hdepth => ?_
          rw [run_primary, if_pos hs, if_pos hdepth]
  | succ n ih =>
      refine finds_conjunctions hd fun p hp => ?_
      cases hp with
      | comparison hc =>
          rw [Primary.places_comparison]
          exact accepts_primary hc depth
      | @group d hne hterms hinner =>
          have hdepth : depth < maxNesting := by omega
          have hparen : Kind.rightParen ∉ ({.or, .and, .dot, .leftParen} : Set Kind) := by simp
          have hfound := ih (depth + 1) (by omega) ⟨hne, hterms, hinner⟩
          refine finds_primary_group (finds_group hdepth hfound hparen) fun s hs hs' => ?_
          rw [run_primary, if_pos hs, if_neg (by omega)]

theorem finds_disjunction {d : Disjunction} (hd : Disjunction.Grammatical d) :
    Finds disjunction (Disjunction.within maxNesting d) (Disjunction.places d 0)
      {.or, .and, .dot, .leftParen} 0 :=
  finds_disjunctionWithin maxNesting 0 (Nat.zero_add _) hd

end

/-! ## Clauses -/

/-- The kinds that may not stand where a clause ends that only `kinds` may follow. -/
def unexpected (kinds : List Kind) : Set Kind := {k | k ∉ Kind.eof :: kinds}

theorem not_mem_unexpected_iff {kinds : List Kind} {k : Kind} :
    k ∉ unexpected kinds ↔ k ∈ Kind.eof :: kinds := not_not

theorem accepts_skipUnexpected (kinds : List Kind) (depth : Nat) :
    Accepts (skipUnexpected kinds) () [] (unexpected kinds) depth := by
  refine .of_faultless nofun ?_
  intro ts tail stop report hts hstop htail
  obtain rfl := spells_nil_iff.mp hts
  have hnext : (State.mk tail stop depth report).next.kind = .eof ∨
      (State.mk tail stop depth report).next.kind ∈ kinds := by
    rw [next_kind hstop]
    exact List.mem_cons.mp (not_mem_unexpected_iff.mp htail)
  rw [List.nil_append, run_skipUnexpected, if_pos hnext]

theorem accepts_groupBy {items : List Selectable} (hne : items ≠ [])
    (hitems : ∀ item ∈ items, item.Grammatical) (depth : Nat) :
    Accepts groupBy items (groupingWritten (some items)) {.comma, .dot, .leftParen} depth := by
  have hitem : ∀ item ∈ items, Accepts groupItem (some item) item.written {.dot, .leftParen}
      depth :=
    fun item h => (accepts_selectable .groupItem (hitems item h) depth).bind_pure rfl
  refine accepts_advance_mark ?_
  exact (accepts_expect .by .byWord).bind_closed (accepts_separated hne (by simp) hitem)

theorem accepts_groupByClause {grouping : Option (List Selectable)}
    (h : ∀ items ∈ grouping, items ≠ [] ∧ ∀ item ∈ items, item.Grammatical) (depth : Nat) :
    Accepts groupByClause grouping (groupingWritten grouping) (unexpected [.having]) depth := by
  cases grouping with
  | none =>
      have hother : ∀ k ∈ [Kind.eof, .having], k ∉ ({.group} : Set Kind) := by simp
      exact (accepts_sees_not .group).bind .pure
        fun k hk => hother k (not_mem_unexpected_iff.mp hk)
  | some items =>
      obtain ⟨hne, hitems⟩ := h items rfl
      rw [← List.append_nil (groupingWritten (some items))]
      refine .of_run (q := groupBy >>= fun items => skipUnexpected [.having] >>= fun _ =>
        pure (some items)) ?_ ?_
      · intro ts tail stop report hts hstop _
        have hnext : (State.mk (ts ++ tail) stop depth report).next.kind = .group := by
          rw [next_kind hstop, headKind_append hts]
          rfl
        rw [groupByClause, run_bind, run_sees, beq_iff_eq.mpr hnext]
        rfl
      · have hend : ∀ k ∈ [Kind.eof, .having], k ∉ ({.comma, .dot, .leftParen} : Set Kind) := by
          simp
        exact (accepts_groupBy hne hitems depth).bind
          ((accepts_skipUnexpected [.having] depth).bind_pure rfl)
          fun k hk => hend k (not_mem_unexpected_iff.mp hk)

theorem finds_havingClause {having : Option Disjunction}
    (h : ∀ d ∈ having, Disjunction.Grammatical d) :
    Finds havingClause (having.map (Disjunction.within maxNesting)) (havingPlaces having)
      (unexpected []) 0 := by
  cases having with
  | none =>
      have hother : ∀ k ∈ [Kind.eof], k ∉ ({.having} : Set Kind) := by simp
      have hnone : Finds (eat .having) false [] {.having} 0 := accepts_eat_not .having
      exact hnone.bind .pure fun k hk => hother k (not_mem_unexpected_iff.mp hk)
  | some d =>
      have hend : ∀ k ∈ [Kind.eof], k ∉ ({.or, .and, .dot, .leftParen} : Set Kind) := by simp
      have hskip : Finds (skipUnexpected []) () [] (unexpected []) 0 := accepts_skipUnexpected [] 0
      have hcondition : Finds (disjunction >>= fun condition => skipUnexpected [] >>= fun _ =>
          pure (some condition)) (some (Disjunction.within maxNesting d))
          (Disjunction.places d 0 ++ []) (unexpected []) 0 :=
        (finds_disjunction (h d rfl)).bind (hskip.bind_pure rfl)
          fun k hk => hend k (not_mem_unexpected_iff.mp hk)
      rw [List.append_nil] at hcondition
      exact Finds.bind_closed (accepts_eat .having) hcondition

/-- After a condition only a clause may follow, after `GROUP BY` only `HAVING`. -/
theorem clauses_firstKind (r : Root) {k : Kind} (hk : k ∈ [Kind.eof]) :
    firstKind (groupingWritten r.grouping ++ havingWritten r.having) k ∈
        [Kind.eof, .group, .having] ∧
      firstKind (havingWritten r.having) k ∈ [Kind.eof, .having] := by
  obtain rfl := List.mem_singleton.mp hk
  obtain ⟨condition, grouping, having⟩ := r
  constructor
  · cases grouping <;> cases having <;> simp [groupingWritten, havingWritten, firstKind, Slot.kind]
  · cases having <;> simp [havingWritten, firstKind, Slot.kind]

/-- **Queries.** A grammatical tree is found in every way to write it, without the groups that are
too deep. -/
theorem finds_root {r : Root} (h : r.Grammatical) :
    Finds root (r.within maxNesting) r.places (unexpected []) 0 := by
  have hslots : slotsOf (havingPlaces r.having) = havingWritten r.having :=
    slotsOf_havingPlaces r.having
  have hend : ∀ k ∈ [Kind.eof, .group, .having],
      k ∉ ({.or, .and, .dot, .leftParen} : Set Kind) := by simp
  -- from the back: each clause may start behind what stands before it
  have hclauses : Finds (skipUnexpected [.group, .having] >>= fun _ =>
      groupByClause >>= fun grouping => havingClause >>= fun having =>
        pure (Root.mk (Disjunction.within maxNesting r.condition) grouping having))
      (r.within maxNesting) (placed 0 (groupingWritten r.grouping) ++ havingPlaces r.having)
      (unexpected []) 0 := by
    have hskip : Finds (skipUnexpected [.group, .having]) () [] (unexpected [.group, .having]) 0 :=
      accepts_skipUnexpected [.group, .having] 0
    refine hskip.bind ?_ fun k hk => ?_
    · refine Finds.bind (accepts_groupByClause h.grouping 0)
        ((finds_havingClause h.having).bind_pure rfl) fun k hk => ?_
      rw [hslots]
      exact not_mem_unexpected_iff.mpr (clauses_firstKind r (not_mem_unexpected_iff.mp hk)).2
    · change firstKind (slotsOf (placed 0 _ ++ _)) k ∉ _
      rw [slotsOf_append, slotsOf_placed, hslots]
      exact not_mem_unexpected_iff.mpr (clauses_firstKind r (not_mem_unexpected_iff.mp hk)).1
  refine (finds_disjunction h.condition).bind hclauses fun k hk => ?_
  rw [slotsOf_append, slotsOf_placed, hslots]
  exact hend _ (clauses_firstKind r (not_mem_unexpected_iff.mp hk)).1

end FilterQuery.Parser

namespace FilterQuery.Tree

open FilterQuery.Parser

/-- The parser starts before the tokens of a query and stops at the end mark behind them. -/
theorem ofTokens_of_spells {r : Root} (h : r.Grammatical) {ts : List Token}
    (hts : Spells r.written ts) {e : Token} (he : e.kind = .eof) (more : List Token) :
    State.ofTokens (ts ++ e :: more) = ⟨ts ++ [], e, 0, .empty⟩ := by
  have hfree : ∀ t ∈ ts, t.kind ≠ .eof := by
    intro t ht
    obtain ⟨slot, hslot, hfills⟩ := hts.exists_slot ht
    rw [hfills.kind_eq]
    exact h.endFree slot hslot
  rw [List.append_nil]
  exact ofTokens_closed hfree he more

/-- What the parser gives and reports on a grammatical tree that is written out. -/
theorem parse_eq_of_grammatical {r : Root} (hr : r.Grammatical) {ts : List Token}
    (hts : Spells r.written ts) {e : Token} (he : e.kind = .eof) (more : List Token) :
    parse (ts ++ e :: more) =
      (r.within maxNesting, Report.empty.blame (faults r.places ts)) := by
  rw [← r.slotsOf_places] at hts
  have hrun := finds_root hr (Nat.zero_le _) ts [] e .empty hts he (by simp [headKind, unexpected])
  rw [r.slotsOf_places] at hts
  rw [parse_eq, ofTokens_of_spells hr hts he more, hrun]

/-- Nothing is wrong with a slot that keeps no number out of range. -/
theorem Slot.InRange.faultless {slot : Slot} (h : slot.InRange) : slot.Faultless := by
  intro n
  cases slot with
  | mark k => rfl
  | kept t =>
      have hnot : ¬(t.kind = .number ∧ n ≤ maxNesting ∧ ¬Tree.InRange t.lexeme) :=
        fun ⟨hnumber, _, hout⟩ => hout (h hnumber)
      exact if_neg hnot

theorem Disjunction.mem_written {d : Disjunction} {c : Conjunction} (hc : c ∈ d) {p : Primary}
    (hp : p ∈ c) {slot : Slot} (h : slot ∈ p.written) : slot ∈ Disjunction.written d :=
  mem_joined (List.mem_map_of_mem hc) (mem_joined (List.mem_map_of_mem hp) h)

/-- Nothing is wrong in a term whose numbers are in range, unless groups nest too deep. -/
theorem Primary.faultless {p : Primary} {n : Nat} (hnesting : p.nesting + n ≤ maxNesting)
    (hrange : ∀ slot ∈ p.written, slot.InRange) : ∀ place ∈ p.places n, place.fault? = none := by
  induction p using Primary.rec' generalizing n with
  | comparison c =>
      rw [written_comparison] at hrange
      rw [places_comparison]
      exact forall_mem_placed.mpr fun slot hslot => (hrange slot hslot).faultless n
  | group d ih =>
      rw [nesting_group] at hnesting
      rw [written_group] at hrange
      obtain ⟨hrange, -⟩ := List.forall_mem_append.mp (List.forall_mem_cons.mp hrange).2
      have hterms : ∀ c ∈ d, ∀ p ∈ c, p.nesting ≤ maxNesting - (n + 1) :=
        Disjunction.nesting_le_iff.mp (by omega)
      have hinner := Disjunction.forall_mem_places (fun _ => rfl) fun c hc p hp =>
        have hp' := hterms c hc p hp
        ih c hc p hp (n := n + 1) (by omega) fun slot hslot =>
          hrange slot (Disjunction.mem_written hc hp hslot)
      have hlt : n < maxNesting := by omega
      rw [places_group]
      refine List.forall_mem_cons.mpr ⟨if_neg (Nat.ne_of_lt hlt),
        List.forall_mem_append.mpr ⟨hinner, ?_⟩⟩
      exact forall_mem_placed.mpr (List.forall_mem_singleton.mpr rfl)

theorem Disjunction.faultless {d : Disjunction} (hnesting : Disjunction.nesting d ≤ maxNesting)
    (hrange : ∀ slot ∈ Disjunction.written d, slot.InRange) :
    ∀ place ∈ Disjunction.places d 0, place.fault? = none :=
  forall_mem_places (fun _ => rfl) fun _ hc p hp =>
    p.faultless (Disjunction.nesting_le_iff.mp hnesting _ hc p hp) fun slot hslot =>
      hrange slot (mem_written hc hp hslot)

/-- **Nothing is wrong in a tree of the language.** -/
theorem Root.WellFormed.faultless {r : Root} (h : r.WellFormed maxNesting) :
    ∀ place ∈ r.places, place.fault? = none := by
  obtain ⟨-, hnesting, hrange⟩ := h
  obtain ⟨hcondition, hhaving⟩ := Nat.max_le.mp hnesting
  obtain ⟨hrange, hclauses⟩ := List.forall_mem_append.mp hrange
  obtain ⟨hgrouping, hrangeHaving⟩ := List.forall_mem_append.mp hclauses
  refine List.forall_mem_append.mpr ⟨Disjunction.faultless hcondition hrange,
    List.forall_mem_append.mpr ⟨?_, ?_⟩⟩
  · exact forall_mem_placed.mpr fun slot hslot => (hgrouping slot hslot).faultless 0
  · generalize r.having = having at hhaving hrangeHaving
    cases having with
    | none => exact nofun
    | some d =>
        refine List.forall_mem_cons.mpr ⟨rfl, Disjunction.faultless hhaving ?_⟩
        exact (List.forall_mem_cons.mp hrangeHaving).2

theorem parse_eq_of_spells {r : Root} (hr : r.WellFormed maxNesting) {ts : List Token}
    (hts : Spells r.written ts) {e : Token} (he : e.kind = .eof) (more : List Token) :
    parse (ts ++ e :: more) = (r, .empty) := by
  rw [parse_eq_of_grammatical hr.grammatical hts he more, Root.within_eq hr.nesting_le,
    faults_eq_nil hr.faultless, Report.blame_nil]

/-- **Completeness.** Every way to write a tree of the language, with an end mark behind it, is
accepted and gives back this tree. So no tokens are a way to write two trees. -/
theorem parse_of_spells (r : Root) (hr : r.WellFormed maxNesting) (ts : List Token)
    (hts : Spells r.written ts) (e : Token) (he : e.kind = .eof) (more : List Token) :
    parse (ts ++ e :: more) = (r, .empty) ∧
      ∀ r' : Root, r'.WellFormed maxNesting → Spells r'.written ts → r' = r := by
  have hparse := parse_eq_of_spells hr hts he more
  refine ⟨hparse, fun r' hr' hts' => ?_⟩
  have hparse' := parse_eq_of_spells hr' hts' he more
  exact congrArg Prod.fst (hparse'.symm.trans hparse)

/-- A token at the start of a text. -/
def tokenAtStart (kind : Kind) (lexeme : String) : Token := { Position.start with kind, lexeme }

/-- `a.not = 1 OR (RIGHT COUNT(*) IS NULL)`, with a clause of each sort after it. -/
def sampleRoot : Root :=
  let path : Tree.Path := [tokenAtStart .identifier "a", tokenAtStart .not "not"]
  let count : Selectable := .call ⟨tokenAtStart .count "COUNT", none⟩
  { condition :=
      [[.comparison ⟨none, .path path, .compare (tokenAtStart .equal "=")
          (.number (tokenAtStart .number "1"))⟩],
        [.group [[.comparison ⟨some (tokenAtStart .right "RIGHT"), count, .null⟩]]]]
    grouping := some [.path path, count]
    having := some [[.comparison ⟨none, count, .isIn [.string (tokenAtStart .string "''")]⟩]] }

/-- A way to write the sample, the left-out tokens with lexemes and places of their own. -/
def sampleRootTokens : List Token :=
  sampleRoot.written.map fun
    | .kept t => t
    | .mark k => ⟨⟨7, 5, 3⟩, k, "?"⟩

theorem sampleRoot_grammatical : sampleRoot.Grammatical := by
  simp [sampleRoot, tokenAtStart, Root.grammatical_iff, Disjunction.grammatical_iff,
    Primary.grammatical_comparison_iff, Primary.grammatical_group_iff, Comparison.Grammatical,
    Selectable.Grammatical, Test.Grammatical, Value.Grammatical, Call.Grammatical,
    Path.Grammatical, Kind.isAggregate, Kind.isKeyword, Kind.isComparison]

theorem parse_of_spells_sampleRoot :
    sampleRoot.WellFormed maxNesting ∧ Spells sampleRoot.written sampleRootTokens ∧
      parse (sampleRootTokens ++ [.eof .start]) = (sampleRoot, .empty) := by
  have hspells : Spells sampleRoot.written sampleRootTokens := by decide
  have hrange : ∀ slot ∈ sampleRoot.written, slot.InRange := by
    decide
  have hwell : sampleRoot.WellFormed maxNesting := ⟨sampleRoot_grammatical, by decide, hrange⟩
  exact ⟨hwell, hspells, (parse_of_spells sampleRoot hwell _ hspells (.eof .start) rfl []).1⟩

end FilterQuery.Tree
