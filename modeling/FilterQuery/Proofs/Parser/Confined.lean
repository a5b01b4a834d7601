import FilterQuery.Proofs.Parser.Sound

/-!
# Productions that stay in their stretch

A *stretch* is what stands between two logical operators of a condition, if it has no parenthesis,
no `BETWEEN` and no clause keyword, and does not end in a dot (`Plain`). A production `Stays` in
a stretch if it takes no token behind it, and if all that it does depends on the stretch alone: only
a complaint may be about the token right behind, whatever that one is. Its `Outcome` is then what
it does from some place of the stretch on (`Confined`).

All the productions of a comparison stay in their stretch, because a token is only taken after it
was seen to be of a kind that no logical operator has (`Stays.take`). So a term of a condition does
the same whatever stands around it (`confined_primary`).
-/

set_option autoImplicit false

namespace FilterQuery.Parser

open FilterQuery.Tree

/-! ## Stretches -/

/-- The kinds of tokens with which a stretch ends, or with which it would be no plain one. -/
def leaving : List Kind :=
  [.and, .or, .between, .leftParen, .rightParen, .group, .having, .eof]

/-- No token leaves the stretch, and the last one is no dot: this could take a logical operator
behind it for a segment of its path. -/
structure Plain (w : List Token) : Prop where
  kinds : ∀ t ∈ w, t.kind ∉ leaving
  last : ∀ t ∈ w.getLast?, t.kind ≠ .dot

/-- The state stands before the tokens `u` of a stretch, and `tail` is what stands behind it. -/
structure State.Before (s : State) (u tail : List Token) : Prop where
  rest : s.rest = u ++ tail
  stop : s.stop.kind = .eof
  apart : ∀ t ∈ tail.head?, t.kind = .and ∨ t.kind = .or

/-- The state stands before tokens of the stretch `w`. -/
def State.Inside (w : List Token) (s : State) : Prop := ∃ u tail, u <:+ w ∧ s.Before u tail

section

variable {w u v tail : List Token} {s : State} {t : Token}

theorem Plain.kind_not_mem (hw : Plain w) (ht : t ∈ w) {kinds : List Kind}
    (hkinds : kinds ⊆ leaving) : t.kind ∉ kinds := fun h => hw.kinds t ht (hkinds h)

theorem Plain.suffix (hw : Plain w) (h : u <:+ w) : Plain u := by
  refine ⟨fun t ht => hw.kinds t (h.subset ht), fun t ht => hw.last t ?_⟩
  obtain ⟨front, rfl⟩ := h
  rw [List.getLast?_append, Option.mem_def.mp ht]
  rfl

theorem State.Before.moved (h : s.Before u tail) (v : List Token) (report : Report) :
    State.Before { s with rest := v ++ tail, report } v tail := ⟨rfl, h.stop, h.apart⟩

theorem State.Before.next_cons (h : s.Before (t :: u) tail) : s.next = t := by
  rw [State.next, h.rest]
  rfl

theorem State.Before.next_nil (h : s.Before [] tail) : s.next = tail.headD s.stop := by
  rw [State.next, h.rest]
  rfl

/-- Behind a stretch stands a logical operator or the end mark. -/
theorem State.Before.kind_behind (h : s.Before u tail) :
    (tail.headD s.stop).kind ∈ [Kind.and, .or, .eof] := by
  cases tail with
  | nil => simp [h.stop]
  | cons t tail =>
      have ht := h.apart t rfl
      simpa using ht.imp_right .inl

/-- A kind that leaves a stretch is not at hand inside, unless it ends the stretch. -/
theorem State.Inside.next_kind_ne (hw : Plain w) (h : s.Inside w) {k : Kind} (hk : k ∈ leaving)
    (hend : k ∉ [Kind.and, .or, .eof]) : s.next.kind ≠ k := by
  obtain ⟨u, tail, hu, hs⟩ := h
  cases u with
  | nil =>
      rw [hs.next_nil]
      exact fun hkind => hend (hkind ▸ hs.kind_behind)
  | cons t u =>
      rw [hs.next_cons]
      exact fun hkind => hw.kinds t (hu.subset (.head _)) (hkind ▸ hk)

/-- The second token is the one at hand after the first. -/
theorem State.secondKind_eq (hrest : s.rest ≠ []) (hstop : s.stop.kind = .eof) :
    s.secondKind = s.advance.next.kind := by
  obtain ⟨rest, stop, depth, report⟩ := s
  match rest, hrest with
  | [_], _ => exact hstop.symm
  | _ :: _ :: _, _ => rfl

/-- No call starts inside a stretch. -/
theorem State.Inside.not_atCall (hw : Plain w) (h : s.Inside w) : s.atCall ≠ true := by
  intro hcall
  obtain ⟨hnext, hsecond⟩ := atCall_iff.mp hcall
  obtain ⟨u, tail, hu, hs⟩ := h
  cases u with
  | nil =>
      have hbehind := hs.kind_behind
      rw [hs.next_nil] at hnext
      exact absurd hnext ((by decide : ∀ k ∈ [Kind.and, .or, .eof], ¬ k.isAggregate) _ hbehind)
  | cons t v =>
      have hadvance : s.advance.Inside w :=
        ⟨v, tail, (List.suffix_cons t v).trans hu, by simp [State.advance, hs.rest], hs.stop,
          hs.apart⟩
      rw [State.secondKind_eq (by simp [hs.rest]) hs.stop] at hsecond
      exact hadvance.next_kind_ne hw (by decide) (by decide) hsecond

end

/-! ## Outcomes -/

/-- What a production does from some place of a stretch on. -/
structure Outcome (α : Type) where
  result : α
  /-- The tokens of the stretch that are left. -/
  left : List Token
  /-- The complaints, each about a token of the stretch or about the one behind it. -/
  complaints : List (Option Token × Complaint)

/-- The complaints, with the token that stands behind the stretch. -/
def Outcome.told {α : Type} (o : Outcome α) (behind : Token) : List (Token × Complaint) :=
  o.complaints.map fun c => (c.1.getD behind, c.2)

/-- From the tokens `u` of the stretch `w` on, the production comes to the outcome `o`, whatever
stands behind the stretch. -/
structure Confined {α : Type} (w : List Token) (p : Parser α) (u : List Token) (o : Outcome α) :
    Prop where
  left : o.left <:+ u
  about : ∀ c ∈ o.complaints, ∀ t ∈ c.1, t ∈ w
  run : ∀ (s : State) (tail : List Token), s.Before u tail →
    p.run s = (o.result,
      { s with rest := o.left ++ tail, report := s.report.blame (o.told (tail.headD s.stop)) })

/-- The production comes to an outcome from every place of the stretch on. -/
def Stays {α : Type} (w : List Token) (p : Parser α) : Prop :=
  ∀ u, u <:+ w → ∃ o, Confined w p u o

section

variable {α β : Type} {w u v : List Token} {p q : Parser α} {o : Outcome α}

/-- A run that goes on from tokens further back. -/
theorem Confined.of_later (hv : v <:+ u) (h : Confined w q v o)
    (hrun : ∀ (s : State) (tail : List Token), s.Before u tail →
      p.run s = q.run { s with rest := v ++ tail }) : Confined w p u o where
  left := h.left.trans hv
  about := h.about
  run s tail hs := by rw [hrun s tail hs, h.run _ tail (hs.moved v s.report)]

namespace Stays

theorem congr (h : Stays w q) (hrun : ∀ s : State, s.Inside w → p.run s = q.run s) :
    Stays w p := by
  intro u hu
  obtain ⟨o, ho⟩ := h u hu
  refine ⟨o, ho.left, ho.about, fun s tail hs => ?_⟩
  rw [hrun s ⟨u, tail, hu, hs⟩, ho.run s tail hs]

theorem pure (a : α) : Stays w (Pure.pure a) := by
  refine fun u _ => ⟨⟨a, u, []⟩, List.suffix_refl u, List.forall_mem_nil _, fun s tail hs => ?_⟩
  rw [run_pure, ← hs.rest]
  rfl

/-- **Productions one after the other.** -/
theorem bind {f : α → Parser β} (hp : Stays w p) (hf : ∀ a, Stays w (f a)) :
    Stays w (p >>= f) := by
  intro u hu
  obtain ⟨o, ho⟩ := hp u hu
  obtain ⟨o', ho'⟩ := hf o.result o.left (ho.left.trans hu)
  refine ⟨⟨o'.result, o'.left, o.complaints ++ o'.complaints⟩, ho'.left.trans ho.left,
    List.forall_mem_append.mpr ⟨ho.about, ho'.about⟩, fun s tail hs => ?_⟩
  rw [run_bind, ho.run s tail hs, ho'.run _ tail (hs.moved _ _)]
  simp [Outcome.told, Report.blame_append]

theorem map {f : α → β} (hp : Stays w p) : Stays w (f <$> p) := hp.bind fun a => .pure (f a)

theorem ite {c : Prop} [Decidable c] (hp : Stays w p) (hq : Stays w q) :
    Stays w (if c then p else q) := by
  split
  · exact hp
  · exact hq

/-- **A token is taken** only if it is of a kind with which no stretch ends. -/
theorem take {P : Kind → Prop} [DecidablePred P] {f : Token → Parser α} (hw : Plain w)
    (hend : ∀ k ∈ [Kind.and, .or, .eof], ¬ P k)
    (hrun : ∀ s : State, s.Inside w →
      p.run s = if P s.next.kind then (f s.next).run s.advance else q.run s)
    (hyes : ∀ t ∈ w, P t.kind → t.kind ∉ leaving → Stays w (f t)) (hno : Stays w q) :
    Stays w p := by
  intro u hu
  by_cases hP : ∃ t v, u = t :: v ∧ P t.kind
  · obtain ⟨t, v, rfl, hP⟩ := hP
    have ht : t ∈ w := hu.subset (.head v)
    have hv : v <:+ t :: v := List.suffix_cons t v
    obtain ⟨o, ho⟩ := hyes t ht hP (hw.kinds t ht) v (hv.trans hu)
    refine ⟨o, ho.of_later hv fun s tail hs => ?_⟩
    rw [hrun s ⟨_, tail, hu, hs⟩, hs.next_cons, if_pos hP, State.advance, hs.rest]
    rfl
  · obtain ⟨o, ho⟩ := hno u hu
    refine ⟨o, ho.left, ho.about, fun s tail hs => ?_⟩
    have hnext : ¬ P s.next.kind := by
      cases u with
      | nil =>
          rw [hs.next_nil]
          exact hend _ hs.kind_behind
      | cons t v =>
          rw [hs.next_cons]
          exact fun h => hP ⟨t, v, rfl, h⟩
    rw [hrun s ⟨_, tail, hu, hs⟩, if_neg hnext, ho.run s tail hs]

end Stays

end

/-! ## The productions of a comparison, in the order of the grammar -/

section

variable {w : List Token}

theorem stays_complain (c : Complaint) : Stays w (complain c) := by
  intro u hu
  refine ⟨⟨(), u, [(u.head?, c)]⟩, List.suffix_refl u, ?_, fun s tail hs => ?_⟩
  · refine List.forall_mem_singleton.mpr fun t ht => hu.subset ?_
    exact List.mem_of_mem_head? ht
  · have hnext : s.next = u.head?.getD (tail.headD s.stop) := by
      cases u with
      | nil => exact hs.next_nil
      | cons t u => exact hs.next_cons
    show ((), s.complain s.next c) = _
    rw [State.complain, hnext, ← hs.rest]
    rfl

/-- A complaint in place of a result. -/
theorem stays_refused {α : Type} (c : Complaint) (a : α) :
    Stays w (complain c >>= fun _ => pure a) := (stays_complain c).bind fun _ => .pure a

theorem stays_eat (hw : Plain w) {k : Kind} (hk : k ∉ [Kind.and, .or, .eof]) :
    Stays w (eat k) :=
  .take hw (P := (· = k)) (f := fun _ => pure true) (q := pure false)
    (fun _ hend h => hk (h ▸ hend)) (fun s _ => run_eat s k) (fun _ _ _ _ => .pure true)
    (.pure false)

theorem stays_expect (hw : Plain w) {k : Kind} (hk : k ∉ [Kind.and, .or, .eof])
    (what : Expectation) : Stays w (expect k what) := by
  refine (stays_eat hw hk).bind fun taken => ?_
  cases taken with
  | true => exact .pure true
  | false => exact stays_refused _ false

/-- The segments of a path are those in the stretch, because the stretch does not end in a dot. -/
theorem segments_plain {u tail : List Token} (hu : Plain u)
    (htail : ∀ t ∈ tail.head?, t.kind ≠ .dot) :
    segments (u ++ tail) = ((segments u).1, (segments u).2.1, (segments u).2.2 ++ tail) := by
  fun_induction segments u with
  | case1 dot t ts hdot => simp [segments, hdot]
  | case2 dot t ts hdot hsegment path complete rest hrest ih =>
      have hts : Plain ts := hu.suffix ((List.suffix_cons t ts).trans (List.suffix_cons dot _))
      simp [segments, hdot, hsegment, ih hts, hrest]
  | case3 dot t ts hdot hsegment => simp [segments, hdot, hsegment]
  | case4 t hdot => exact absurd hdot (hu.last t rfl)
  | case5 t hdot => cases tail <;> simp [segments, hdot]
  | case6 =>
      match tail, htail with
      | [], _ => rfl
      | [t], htail => simp [segments, htail t rfl]
      | t :: next :: tail, htail => simp [segments, htail t rfl]

/-- The rest of a path after its first token. -/
def pathAfter (first : Token) : Parser (Option Tree.Path) := fun s =>
  (if (segments s.rest).2.1 = true then pure (some (first :: (segments s.rest).1))
    else complain (.expected .segment) >>= fun _ => pure none).run
    { s with rest := (segments s.rest).2.2 }

theorem stays_pathAfter (hw : Plain w) (first : Token) : Stays w (pathAfter first) := by
  intro u hu
  have hsuffix : (segments u).2.2 <:+ u := segments_suffix u
  have hrest : Stays w (if (segments u).2.1 = true then pure (some (first :: (segments u).1))
      else complain (.expected .segment) >>= fun _ => pure none) :=
    .ite (.pure _) (stays_refused _ none)
  obtain ⟨o, ho⟩ := hrest _ (hsuffix.trans hu)
  refine ⟨o, ho.of_later hsuffix fun s tail hs => ?_⟩
  have htail : ∀ t ∈ tail.head?, t.kind ≠ .dot := by
    intro t ht hdot
    have hkind := hs.apart t ht
    simp [hdot] at hkind
  have hsegments := segments_plain (hw.suffix hu) htail
  rw [← hs.rest] at hsegments
  show (if (segments s.rest).2.1 = true then pure (some (first :: (segments s.rest).1))
    else complain (.expected .segment) >>= fun _ => pure none).run
      { s with rest := (segments s.rest).2.2 } = _
  rw [hsegments]

theorem stays_selectable (hw : Plain w) (what : Expectation) : Stays w (selectable what) := by
  refine .take hw (P := fun k => k = .identifier ∨ k.isAggregate)
    (f := fun first => (·.map .path) <$> pathAfter first)
    (q := complain (.expected what) >>= fun _ => pure none) (by decide) (fun s hs => ?_)
    (fun first _ _ _ => (stays_pathAfter hw first).map) (stays_refused _ none)
  rw [run_selectable, if_neg (hs.not_atCall hw)]
  by_cases hpath : s.atPath = true
  · rw [if_pos hpath, if_pos (atPath_iff.mp hpath)]
    rfl
  · rw [if_neg hpath, if_neg (mt atPath_iff.mpr hpath)]
    rfl

/-- The rest of a number after its token. -/
def numberAfter (t : Token) : Parser (Option Value) := fun s =>
  (some (.number t), if inRange t.lexeme then s else s.complain t .outOfRange)

theorem stays_numberAfter {t : Token} (ht : t ∈ w) : Stays w (numberAfter t) := by
  intro u hu
  refine ⟨⟨some (.number t), u, if inRange t.lexeme then [] else [(some t, .outOfRange)]⟩,
    List.suffix_refl u, ?_, fun s tail hs => ?_⟩
  · split
    · exact List.forall_mem_nil _
    · exact List.forall_mem_singleton.mpr fun v hv => Option.mem_some.mp hv ▸ ht
  · show (some (Value.number t), if inRange t.lexeme then s else s.complain t .outOfRange) = _
    simp only
    rw [← hs.rest]
    split
    · rfl
    · rfl

theorem stays_value (hw : Plain w) : Stays w value := by
  have hnumber : Stays w fun s : State => if s.next.kind = .number then number.run s
      else ((·.map selectableValue) <$> selectable .value).run s :=
    .take hw (P := (· = .number)) (f := numberAfter)
      (q := (·.map selectableValue) <$> selectable .value) (by decide) (fun _ _ => rfl)
      (fun _ ht _ _ => stays_numberAfter ht) (stays_selectable hw _).map
  refine .take hw (P := (· = .string)) (f := fun t => pure (some (.string t))) (by decide)
    (fun s _ => ?_) (fun t _ _ _ => .pure _) hnumber
  by_cases hstring : s.next.kind = .string
  · rw [run_value, if_pos hstring, if_pos hstring]
    rfl
  · rw [if_neg hstring]
    by_cases hnumber : s.next.kind = .number
    · rw [run_value, if_neg hstring, if_pos hnumber]
      exact (if_pos hnumber).symm
    · rw [run_value_selectable hstring hnumber]
      exact (if_neg hnumber).symm

/-- A stretch has no parenthesis, so no list starts in it. -/
theorem stays_list (hw : Plain w) : Stays w list := by
  refine (stays_refused (.expected .listStart) none).congr fun s hs => ?_
  have hnext := hs.next_kind_ne hw (k := .leftParen) (by decide) (by decide)
  rw [list, run_bind, run_expect, if_neg hnext]
  rfl

theorem stays_nullTest (hw : Plain w) : Stays w nullTest := by
  refine (stays_eat hw (by decide)).bind fun _ => (stays_expect hw (by decide) _).bind fun _ => ?_
  exact .ite (.pure _) (.pure none)

theorem stays_test (hw : Plain w) : Stays w test := by
  refine .take hw (P := fun k => k.isComparison) (f := fun t => (·.map (.compare t)) <$> value)
    (by decide) (fun s _ => run_test s) (fun t _ _ _ => (stays_value hw).map) ?_
  refine .take hw (P := (· = .isIn)) (f := fun _ => (·.map .isIn) <$> list) (by decide)
    (fun _ _ => rfl) (fun _ _ _ _ => (stays_list hw).map) ?_
  -- a stretch has no `BETWEEN`, whose bounds would go on behind an `AND`
  refine .take hw (P := (· = .between)) (f := fun _ => bounds) (by decide) (fun _ _ => rfl)
    (fun t _ hbetween hkind => absurd (hbetween ▸ hkind) (by decide)) ?_
  exact .take hw (P := (· = .is)) (f := fun _ => nullTest)
    (q := complain (.expected .operator) >>= fun _ => pure none) (by decide) (fun _ _ => rfl)
    (fun _ _ _ _ => stays_nullTest hw) (stays_refused _ none)

theorem stays_joinWord (hw : Plain w) : Stays w joinWord :=
  .take hw (P := fun k => k = .left ∨ k = .right) (f := fun t => pure (some t)) (q := pure none)
    (by decide) (fun s _ => run_joinWord s) (fun t _ _ _ => .pure _) (.pure none)

theorem stays_comparison (hw : Plain w) : Stays w comparison := by
  refine (stays_joinWord hw).bind fun join => (stays_selectable hw _).bind fun left => ?_
  cases left with
  | none => exact .pure none
  | some left =>
      refine (stays_test hw).bind fun test => ?_
      cases test with
      | none => exact .pure none
      | some test => exact .pure _

/-- The rest of the stretch is skipped. -/
theorem confined_synchronize {u : List Token} (hw : Plain w) (hu : u <:+ w) :
    Confined w synchronize u ⟨(), [], []⟩ := by
  refine ⟨List.nil_suffix, List.forall_mem_nil _, fun s tail hs => ?_⟩
  have hall : ∀ t ∈ u, t.kind ∉ [Kind.and, .or, .rightParen, .group, .having] := fun t ht =>
    hw.kind_not_mem (hu.subset ht) (by decide)
  have hrest : s.rest.dropWhile (fun t => t.kind ∉ [Kind.and, .or, .rightParen, .group, .having]) =
      tail := by
    rw [hs.rest, List.dropWhile_append_of_pos fun t ht => decide_eq_true (hall t ht)]
    cases tail with
    | nil => rfl
    | cons t tail => rcases hs.apart t rfl with hkind | hkind <;> simp [hkind]
  show ((), { s with rest := s.rest.dropWhile _ }) = _
  rw [hrest]
  rfl

/-- What becomes of a comparison as a term: after a failure nothing of the stretch is left. -/
def Outcome.asTerm (o : Outcome (Option Comparison)) : Outcome (Option Primary) where
  result := o.result.map .comparison
  left := if o.result.isSome then o.left else []
  complaints := o.complaints

/-- **A term of a condition stays in its stretch.** -/
theorem confined_primary {u : List Token} {o : Outcome (Option Comparison)} (hw : Plain w)
    (hu : u <:+ w) (h : Confined w comparison u o) (inner : Parser Disjunction) :
    Confined w (primary inner) u o.asTerm := by
  obtain ⟨result, left, complaints⟩ := o
  refine ⟨?_, h.about, fun s tail hs => ?_⟩
  · cases result with
    | none => exact List.nil_suffix
    | some c => exact h.left
  · have hnext : s.next.kind ≠ .leftParen :=
      State.Inside.next_kind_ne hw ⟨u, tail, hu, hs⟩ (by decide) (by decide)
    rw [run_primary, if_neg hnext, comparisonTerm, run_bind, h.run s tail hs]
    cases result with
    | none =>
        have hskip := confined_synchronize hw (h.left.trans hu)
        dsimp only
        rw [run_bind, hskip.run _ tail (hs.moved _ _)]
        rfl
    | some c => rfl

end

end FilterQuery.Parser
