import FilterQuery.Proofs.Parser.Run
import FilterQuery.Proofs.Tree.Reworded

/-!
# The parser on two lists of tokens

The parser looks at the kinds of tokens, at the digits of numbers, and at places only to tell
whether they are the same. So on two lists whose tokens agree in these things one by one, it does
the same: what it makes of the tokens agrees (`Twins` for its states, `Even` for productions), and
it has the same complaints about the same tokens (`Echoes`). End marks only have to agree in what
the parser sees, because it keeps none in a tree. Main result: `parse_twins`.
-/

set_option autoImplicit false

namespace FilterQuery.Parser

open FilterQuery.Tree

/-! ## Tokens side by side -/

/-- What the parser sees of a token is the same in both lists, and so is what `f` makes of it if it
can be kept in a tree. -/
structure Pairs (f : Token → Token) (R : Token → Token → Prop) : Prop where
  image : ∀ {t u}, R t u → t.kind ≠ .eof → f t = f u
  kind : ∀ {t u}, R t u → t.kind = u.kind
  number : ∀ {t u}, R t u → t.kind = .number → t.lexeme = u.lexeme
  place : ∀ {t u t' u'}, R t u → R t' u' → (t.offset ≤ t'.offset ↔ u.offset ≤ u'.offset)

/-- Complaints about two tokens that stand side by side. -/
def Matches (R : Token → Token → Prop) (p q : Problem) : Prop :=
  ∃ t u message message', R t u ∧ p = .grammatical (.atToken t message) ∧
    q = .grammatical (.atToken u message')

/-- The same complaint; the functions that it names stand side by side. -/
inductive SameComplaint (R : Token → Token → Prop) : Complaint → Complaint → Prop where
  | refl (c : Complaint) : SameComplaint R c c
  | starOutsideCount {t u : Token} (h : R t u) :
      SameComplaint R (.starOutsideCount t.lexeme) (.starOutsideCount u.lexeme)

/-- The same complaint about two tokens that stand side by side. -/
def Echoes (R : Token → Token → Prop) (p q : Problem) : Prop :=
  ∃ t u c d, R t u ∧ SameComplaint R c d ∧ p = .grammatical (.atToken t (c.message t)) ∧
    q = .grammatical (.atToken u (d.message u))

/-- Two states in which the parser has come equally far. -/
structure Twins (R : Token → Token → Prop) (s t : State) : Prop where
  rest : List.Forall₂ R s.rest t.rest
  stop : R s.stop t.stop
  depth : s.depth = t.depth
  problems : List.Forall₂ (Echoes R) s.report.problems t.report.problems

section

variable {f : Token → Token} {R : Token → Token → Prop}

theorem Pairs.offset_eq_iff (hR : Pairs f R) {t u t' u' : Token} (h : R t u) (h' : R t' u') :
    t.offset = t'.offset ↔ u.offset = u'.offset := by
  have hle := hR.place h h'
  have hge := hR.place h' h
  omega

/-! ## States side by side -/

theorem Echoes.matches {p q : Problem} (h : Echoes R p q) : Matches R p q := by
  obtain ⟨t, u, c, d, htu, -, hp, hq⟩ := h
  exact ⟨t, u, _, _, htu, hp, hq⟩

theorem Twins.next {s t : State} (h : Twins R s t) : R s.next t.next := by
  have hrest := h.rest
  rw [State.next, State.next]
  generalize s.rest = ts, t.rest = us at hrest ⊢
  cases hrest with
  | nil => exact h.stop
  | cons htu _ => exact htu

theorem Twins.advance {s t : State} (h : Twins R s t) : Twins R s.advance t.advance := by
  refine ⟨?_, h.stop, h.depth, h.problems⟩
  have hrest := h.rest
  show List.Forall₂ R s.rest.tail t.rest.tail
  generalize s.rest = ts, t.rest = us at hrest ⊢
  cases hrest with
  | nil => exact .nil
  | cons _ htail => exact htail

theorem Twins.drop {s t : State} (h : Twins R s t) {rest rest' : List Token}
    (hrest : List.Forall₂ R rest rest') : Twins R { s with rest } { t with rest := rest' } :=
  ⟨hrest, h.stop, h.depth, h.problems⟩

theorem Twins.withDepth {s t : State} (h : Twins R s t) {m n : Nat} (hmn : m = n) :
    Twins R { s with depth := m } { t with depth := n } := ⟨h.rest, h.stop, hmn, h.problems⟩

variable (hR : Pairs f R)
include hR

theorem Twins.kind_next {s t : State} (h : Twins R s t) : s.next.kind = t.next.kind :=
  hR.kind h.next

theorem Twins.secondKind {s t : State} (h : Twins R s t) : s.secondKind = t.secondKind := by
  have hrest := h.rest
  rw [State.secondKind, State.secondKind]
  generalize s.rest = ts, t.rest = us at hrest ⊢
  cases hrest with
  | nil => rfl
  | cons _ htail =>
      cases htail with
      | nil => rfl
      | cons htu _ => exact hR.kind htu

theorem Twins.atCall {s t : State} (h : Twins R s t) : s.atCall = t.atCall := by
  rw [State.atCall, State.atCall, h.kind_next hR, h.secondKind hR]

theorem Twins.atPath {s t : State} (h : Twins R s t) : s.atPath = t.atPath := by
  rw [State.atPath, State.atPath, h.kind_next hR]

/-- There is a complaint at the place of the one token if there is one at that of the other. -/
theorem hasSyntaxAt_eq {a b : Report} (h : List.Forall₂ (Echoes R) a.problems b.problems)
    {t u : Token} (htu : R t u) : a.hasSyntaxAt t.offset = b.hasSyntaxAt u.offset := by
  rw [Report.hasSyntaxAt, Report.hasSyntaxAt]
  generalize a.problems = ps, b.problems = qs at h
  induction h with
  | nil => rfl
  | cons hpq _ ih =>
      obtain ⟨t', u', c, d, htu', -, rfl, rfl⟩ := hpq
      have hplace : (t'.offset == t.offset) = (u'.offset == u.offset) := by
        rw [Bool.eq_iff_iff, beq_iff_eq, beq_iff_eq]
        exact hR.offset_eq_iff htu' htu
      exact congrArg₂ or hplace ih

theorem Twins.complain {s t : State} (h : Twins R s t) {u v : Token} (huv : R u v)
    {c d : Complaint} (hcd : SameComplaint R c d) : Twins R (s.complain u c) (t.complain v d) := by
  refine ⟨h.rest, h.stop, h.depth, ?_⟩
  have hplace := hasSyntaxAt_eq hR h.problems huv
  show List.Forall₂ (Echoes R)
    (if s.report.hasSyntaxAt u.offset = true then s.report else s.report.add _).problems
    (if t.report.hasSyntaxAt v.offset = true then t.report else t.report.add _).problems
  rw [hplace]
  split
  · exact h.problems
  · exact List.rel_append h.problems (.cons ⟨u, v, c, d, huv, hcd, rfl, rfl⟩ .nil)

/-! ## Tokens that are left out side by side -/

omit hR in
theorem forall₂_dropWhile {p : Token → Bool} (hp : ∀ {t u}, R t u → p t = p u)
    {ts us : List Token} (h : List.Forall₂ R ts us) :
    List.Forall₂ R (ts.dropWhile p) (us.dropWhile p) := by
  induction h with
  | nil => exact .nil
  | @cons t u ts us htu hrest ih =>
      rw [List.dropWhile_cons, List.dropWhile_cons, hp htu]
      split
      · exact ih
      · exact .cons htu hrest

theorem forall₂_afterGroup {ts us : List Token} (h : List.Forall₂ R ts us) (depth : Nat) :
    List.Forall₂ R (afterGroup depth ts) (afterGroup depth us) := by
  induction h generalizing depth with
  | nil => exact .nil
  | @cons t u ts us htu hrest ih =>
      rw [afterGroup.eq_def, afterGroup.eq_def depth (u :: us)]
      dsimp only
      rw [hR.kind htu]
      split
      · exact ih _
      split
      · cases depth with
        | zero => exact hrest
        | succ depth => exact ih depth
      · exact ih depth

omit hR in
theorem ne_eof_of_isSegment {k : Kind} (h : isSegment k = true) : k ≠ .eof := by
  rintro rfl
  cases h

theorem segments_twins {ts us : List Token} (h : List.Forall₂ R ts us) :
    (segments ts).1.map f = (segments us).1.map f ∧ (segments ts).2.1 = (segments us).2.1 ∧
      List.Forall₂ R (segments ts).2.2 (segments us).2.2 := by
  fun_induction segments ts generalizing us with
  | case1 dot t ts hdot =>
      obtain ⟨dot', us, hdots, hrest, rfl⟩ := List.forall₂_cons_left_iff.mp h
      obtain ⟨u, us, -, -, rfl⟩ := List.forall₂_cons_left_iff.mp hrest
      rw [hR.kind hdots] at hdot
      rw [segments, if_pos hdot]
      exact ⟨rfl, rfl, h⟩
  | case2 dot t ts hdot hsegment path complete rest hpath ih =>
      obtain ⟨dot', us, hdots, hrest, rfl⟩ := List.forall₂_cons_left_iff.mp h
      obtain ⟨u, us, htu, htail, rfl⟩ := List.forall₂_cons_left_iff.mp hrest
      obtain ⟨hpaths, hcomplete, hrests⟩ := ih htail
      rw [hR.kind hdots] at hdot
      rw [hR.kind htu] at hsegment
      rw [segments, if_neg hdot, if_pos hsegment]
      rw [hpath] at hpaths hcomplete hrests
      have hkept : t.kind ≠ .eof := ne_eof_of_isSegment (hR.kind htu ▸ hsegment)
      refine ⟨?_, hcomplete, hrests⟩
      rw [List.map_cons, List.map_cons, hR.image htu hkept, hpaths]
  | case3 dot t ts hdot hsegment =>
      obtain ⟨dot', us, hdots, hrest, rfl⟩ := List.forall₂_cons_left_iff.mp h
      obtain ⟨u, us, htu, -, rfl⟩ := List.forall₂_cons_left_iff.mp hrest
      rw [hR.kind hdots] at hdot
      rw [hR.kind htu] at hsegment
      rw [segments, if_neg hdot, if_neg hsegment]
      exact ⟨rfl, rfl, hrest⟩
  | case4 t hdot =>
      obtain ⟨u, us, htu, hrest, rfl⟩ := List.forall₂_cons_left_iff.mp h
      cases hrest
      rw [hR.kind htu] at hdot
      rw [segments, if_pos hdot]
      exact ⟨rfl, rfl, .nil⟩
  | case5 t hdot =>
      obtain ⟨u, us, htu, hrest, rfl⟩ := List.forall₂_cons_left_iff.mp h
      cases hrest
      rw [hR.kind htu] at hdot
      rw [segments, if_neg hdot]
      exact ⟨rfl, rfl, h⟩
  | case6 =>
      cases h
      exact ⟨rfl, rfl, .nil⟩

end

/-! ## Productions side by side -/

/-- Results in the relation `Q`, with states side by side. -/
def Linked {α β : Type} (R : Token → Token → Prop) (Q : α → β → Prop) (x : α × State)
    (y : β × State) : Prop := Q x.1 y.1 ∧ Twins R x.2 y.2

/-- Run side by side, the productions come equally far, with results in the relation `Q`. -/
structure Even {α β : Type} (R : Token → Token → Prop) (Q : α → β → Prop) (p : Parser α)
    (q : Parser β) : Prop where
  run : ∀ {s t}, Twins R s t → Linked R Q (p.run s) (q.run t)

/-- What `g` makes of both is the same. -/
def Agree {α γ : Type} (g : α → γ) (a b : α) : Prop := g a = g b

namespace Linked

variable {α β β' γ γ' : Type} {R : Token → Token → Prop} {s t : State} {p p' : Parser (Option α)}
  {g : α → γ}

/-- After a result in both runs, or in none of them. -/
theorem bind_option {Q : β → β' → Prop} {k : Option α → Parser β} {k' : Option α → Parser β'}
    (h : Linked R (Agree (Option.map g)) (p.run s) (p'.run t))
    (hnone : ∀ {s t}, Twins R s t → Linked R Q ((k none).run s) ((k' none).run t))
    (hsome : ∀ a a', g a = g a' → ∀ {s t}, Twins R s t →
      Linked R Q ((k (some a)).run s) ((k' (some a')).run t)) :
    Linked R Q ((p >>= k).run s) ((p' >>= k').run t) := by
  obtain ⟨ha, hst⟩ := h
  rw [run_bind, run_bind]
  generalize (p.run s).1 = a, (p'.run t).1 = a' at ha
  cases a with
  | none =>
      cases a' with
      | none => exact hnone hst
      | some a' => cases ha
  | some a =>
      cases a' with
      | none => cases ha
      | some a' => exact hsome a a' (Option.some.inj ha) hst

/-- The result becomes a part of a larger one. -/
theorem map_option {g' : β → γ'} {u u' : α → β}
    (h : Linked R (Agree (Option.map g)) (p.run s) (p'.run t)) (v : γ → γ')
    (hu : ∀ a, g' (u a) = v (g a)) (hu' : ∀ a, g' (u' a) = v (g a)) :
    Linked R (Agree (Option.map g')) (((·.map u) <$> p).run s) (((·.map u') <$> p').run t) := by
  obtain ⟨ha, hst⟩ := h
  refine ⟨?_, hst⟩
  have hsame : ((p.run s).1.map g).map v = ((p'.run t).1.map g).map v := congrArg _ ha
  simp only [Option.map_map] at hsame
  simp only [Agree, run_map, Option.map_map]
  rwa [show g' ∘ u = v ∘ g from funext hu, show g' ∘ u' = v ∘ g from funext hu']

end Linked

namespace Even

variable {α α' β β' γ : Type} {R : Token → Token → Prop} {P : α → α' → Prop} {Q : β → β' → Prop}

theorem pure {b : β} {b' : β'} (h : Q b b') : Even R Q (Pure.pure b) (Pure.pure b') :=
  ⟨fun hst => ⟨h, hst⟩⟩

theorem map {p : Parser α} {p' : Parser α'} {u : α → β} {u' : α' → β'} (hp : Even R P p p')
    (h : ∀ a a', P a a' → Q (u a) (u' a')) : Even R Q (u <$> p) (u' <$> p') := by
  refine ⟨fun hst => ?_⟩
  obtain ⟨hP, hst⟩ := hp.run hst
  exact ⟨h _ _ hP, hst⟩

theorem bind {p : Parser α} {p' : Parser α'} {k : α → Parser β} {k' : α' → Parser β'}
    (hp : Even R P p p') (hk : ∀ a a', P a a' → Even R Q (k a) (k' a')) :
    Even R Q (p >>= k) (p' >>= k') := by
  refine ⟨fun hst => ?_⟩
  obtain ⟨hP, hst⟩ := hp.run hst
  rw [run_bind, run_bind]
  exact (hk _ _ hP).run hst

/-- After the same answer in both runs. -/
theorem bind_bool {p p' : Parser Bool} {k : Bool → Parser β} {k' : Bool → Parser β'}
    (hp : Even R Eq p p') (htrue : Even R Q (k true) (k' true))
    (hfalse : Even R Q (k false) (k' false)) : Even R Q (p >>= k) (p' >>= k') := by
  refine hp.bind fun b b' hb => ?_
  subst hb
  cases b with
  | true => exact htrue
  | false => exact hfalse

/-- After a result in both runs, or in none of them. -/
theorem bind_option {g : α → γ} {p p' : Parser (Option α)} {k : Option α → Parser β}
    {k' : Option α → Parser β'} (hp : Even R (Agree (Option.map g)) p p')
    (hnone : Even R Q (k none) (k' none))
    (hsome : ∀ a a', g a = g a' → Even R Q (k (some a)) (k' (some a'))) :
    Even R Q (p >>= k) (p' >>= k') :=
  ⟨fun hst => (hp.run hst).bind_option hnone.run fun a a' ha => (hsome a a' ha).run⟩

theorem none {g : α → γ} :
    Even R (Agree (Option.map g)) (Pure.pure Option.none) (Pure.pure Option.none) := pure rfl

theorem some {g : α → γ} {a a' : α} (h : g a = g a') :
    Even R (Agree (Option.map g)) (Pure.pure (Option.some a)) (Pure.pure (Option.some a')) :=
  pure (congrArg Option.some h)

end Even

section

variable {f : Token → Token} {R : Token → Token → Prop} (hR : Pairs f R)
include hR

omit hR in
theorem even_advance : Even R R advance advance := ⟨fun h => ⟨h.next, h.advance⟩⟩

theorem even_complain {c d : Complaint} (hcd : SameComplaint R c d) :
    Even R Eq (complain c) (complain d) :=
  ⟨fun h => ⟨rfl, h.complain hR h.next hcd⟩⟩

theorem even_sees (k : Kind) : Even R Eq (sees k) (sees k) := by
  refine ⟨fun {s t} h => ?_⟩
  rw [run_sees, run_sees, h.kind_next hR]
  exact ⟨rfl, h⟩

theorem even_eat (k : Kind) : Even R Eq (eat k) (eat k) := by
  refine ⟨fun {s t} h => ?_⟩
  rw [run_eat, run_eat, h.kind_next hR]
  split
  · exact ⟨rfl, h.advance⟩
  · exact ⟨rfl, h⟩

theorem even_expect (k : Kind) (what : Expectation) :
    Even R Eq (expect k what) (expect k what) :=
  (even_eat hR k).bind_bool (.pure rfl) ((even_complain hR (.refl _)).bind fun _ _ _ => .pure rfl)

theorem even_skipUntil (stops : List Kind) : Even R Eq (skipUntil stops) (skipUntil stops) := by
  refine ⟨fun {s t} h => ?_⟩
  refine ⟨rfl, h.drop (forall₂_dropWhile (fun htu => ?_) h.rest)⟩
  rw [hR.kind htu]

theorem even_skipGroup : Even R Eq skipGroup skipGroup :=
  ⟨fun h => ⟨rfl, h.drop (forall₂_afterGroup hR h.rest 0)⟩⟩

theorem even_skipUnexpected (stops : List Kind) :
    Even R Eq (skipUnexpected stops) (skipUnexpected stops) := by
  refine ⟨fun {s t} h => ?_⟩
  rw [run_skipUnexpected, run_skipUnexpected, h.kind_next hR]
  split
  · exact ⟨rfl, h⟩
  · exact (even_skipUntil hR stops).run (h.complain hR h.next (.refl _))

theorem even_chain {α γ : Type} {g : α → γ} (separator : Kind) {item item' : Parser (Option α)}
    (hitem : Even R (Agree (Option.map g)) item item') (fuel : Nat) :
    Even R (Agree (List.map g)) (chain separator item fuel) (chain separator item' fuel) := by
  induction fuel with
  | zero => exact .pure rfl
  | succ fuel ih =>
      have hlist : ∀ {a b : Option α}, Agree (Option.map g) a b →
          a.toList.map g = b.toList.map g := by
        intro a b hab
        rw [← Option.toList_map, ← Option.toList_map, hab]
      refine hitem.bind fun a b hab => (even_eat hR separator).bind_bool ?_ (.pure (hlist hab))
      refine ih.bind fun as bs habs => .pure ?_
      rw [Agree, List.map_append, List.map_append, hlist hab, habs]

theorem even_separated {α γ : Type} {g : α → γ} (separator : Kind)
    {item item' : Parser (Option α)} (hitem : Even R (Agree (Option.map g)) item item') :
    Even R (Agree (List.map g)) (separated separator item) (separated separator item') := by
  refine ⟨fun {s t} h => ?_⟩
  have hlength : s.rest.length = t.rest.length := h.rest.length_eq
  show Linked R _ ((chain separator item (s.rest.length + 1)).run s) _
  rw [hlength]
  exact (even_chain hR separator hitem _).run h

/-! ## Paths, calls and values -/

/-- The first token of a path is none that ends the text. -/
theorem linked_path {s t : State} (h : Twins R s t) (hs : s.atPath = true) :
    Linked R (Agree (Option.map (List.map f))) (path.run s) (path.run t) := by
  obtain ⟨hpath, hcomplete, hrest⟩ := segments_twins hR h.advance.rest
  rw [run_path, run_path, hcomplete]
  split
  · refine (Even.some ?_).run (h.advance.drop hrest)
    rw [List.map_cons, List.map_cons, hR.image h.next (next_ne_of_atPath hs rfl), hpath]
  · exact ((even_complain hR (.refl _)).bind fun _ _ _ => .none).run (h.advance.drop hrest)

theorem even_callEnd {function function' : Token} (hf : R function function')
    (hkind : function.kind ≠ .eof) {argument argument' : Option Tree.Path}
    (ha : argument.map (List.map f) = argument'.map (List.map f)) :
    Even R (Agree (Option.map (Call.map f))) (callEnd function argument)
      (callEnd function' argument') := by
  refine (even_expect hR _ _).bind_bool (.some ?_) .none
  rw [Call.map, Call.map, hR.image hf hkind, ha]

theorem even_badArgument {c d : Complaint} (hcd : SameComplaint R c d) :
    Even R (Agree (Option.map (Call.map f))) (badArgument c) (badArgument d) :=
  (even_complain hR hcd).bind fun _ _ _ => (even_skipGroup hR).bind fun _ _ _ => .none

theorem even_callArgument {function function' : Token} (hf : R function function')
    (hkind : function.kind ≠ .eof) :
    Even R (Agree (Option.map (Call.map f))) (callArgument function)
      (callArgument function') := by
  refine ⟨fun {s t} h => ?_⟩
  rw [run_callArgument, run_callArgument, h.kind_next hR, h.atCall hR, h.atPath hR, hR.kind hf]
  split
  · split
    · exact (even_callEnd hR hf hkind rfl).run h.advance
    · exact (even_badArgument hR (.starOutsideCount hf)).run h
  split
  · exact (even_badArgument hR (.refl _)).run h
  split
  · next hpath =>
      have hp := linked_path hR h ((h.atPath hR).trans hpath)
      refine hp.bind_option Even.none.run fun p p' hp => ?_
      have hend : Even R (Agree (Option.map (Call.map f))) (callEnd function (some p))
          (callEnd function' (some p')) := even_callEnd hR hf hkind (congrArg some hp)
      intro s t hst
      exact hend.run hst
  · exact (even_badArgument hR (.refl _)).run h

/-- The function of a call is none of the marks that end a text. -/
theorem linked_call {s t : State} (h : Twins R s t) (hs : s.atCall = true) :
    Linked R (Agree (Option.map (Call.map f))) (call.run s) (call.run t) := by
  have hpath := atPath_iff.mpr (.inr (atCall_iff.mp hs).1)
  have hargument := even_callArgument hR h.next (next_ne_of_atPath hpath rfl)
  have hrest : Even R (Agree (Option.map (Call.map f)))
      (expect .leftParen .callStart >>= fun b =>
        if b = true then callArgument s.next else pure none)
      (expect .leftParen .callStart >>= fun b =>
        if b = true then callArgument t.next else pure none) :=
    (even_expect hR _ _).bind_bool hargument .none
  exact hrest.run h.advance

theorem even_selectable (what : Expectation) :
    Even R (Agree (Option.map (Selectable.map f))) (selectable what) (selectable what) := by
  refine ⟨fun {s t} h => ?_⟩
  rw [run_selectable, run_selectable, h.atCall hR, h.atPath hR]
  split
  · next hcall =>
      have hc := linked_call hR h ((h.atCall hR).trans hcall)
      exact hc.map_option Selectable.call (fun _ => by rfl) fun _ => by rfl
  split
  · next hpath =>
      have hp := linked_path hR h ((h.atPath hR).trans hpath)
      exact hp.map_option Selectable.path (fun _ => by rfl) fun _ => by rfl
  · exact ⟨rfl, h.complain hR h.next (.refl _)⟩

/-- A number is in range in both lists or in none of them. -/
theorem linked_number {s t : State} (h : Twins R s t) (hnumber : s.next.kind = .number) :
    Linked R (Agree (Option.map (Value.map f))) (number.run s) (number.run t) := by
  rw [run_number, run_number]
  refine ⟨congrArg (fun t => some (Value.number t)) (hR.image h.next (by simp [hnumber])), ?_⟩
  rw [← hR.number h.next hnumber]
  show Twins R (if inRange s.next.lexeme then _ else _) _
  split
  · exact h.advance
  · exact h.advance.complain hR h.next (.refl _)

theorem even_value : Even R (Agree (Option.map (Value.map f))) value value := by
  refine ⟨fun {s t} h => ?_⟩
  rw [run_value, run_value, h.kind_next hR, h.atCall hR, h.atPath hR]
  split
  · next hstring =>
      have hkind : s.next.kind ≠ .eof := by simp [h.kind_next hR, hstring]
      exact ⟨congrArg (fun t => some (Value.string t)) (hR.image h.next hkind), h.advance⟩
  split
  · next hnumber => exact linked_number hR h ((h.kind_next hR).trans hnumber)
  split
  · next hcall =>
      have hc := linked_call hR h ((h.atCall hR).trans hcall)
      exact hc.map_option Value.call (fun _ => by rfl) fun _ => by rfl
  split
  · next hpath =>
      have hp := linked_path hR h ((h.atPath hR).trans hpath)
      exact hp.map_option Value.path (fun _ => by rfl) fun _ => by rfl
  · exact ⟨rfl, h.complain hR h.next (.refl _)⟩

theorem even_values (fuel : Nat) :
    Even R (Agree (Option.map (List.map (Value.map f)))) (values fuel) (values fuel) := by
  induction fuel with
  | zero => exact .none
  | succ fuel ih =>
      refine (even_value hR).bind_option .none fun v v' hv => ?_
      refine (even_eat hR _).bind_bool ?_ (.some ?_)
      · refine ih.bind_option .none fun vs vs' hvs => .some ?_
        rw [List.map_cons, List.map_cons, hv, hvs]
      · rw [List.map_singleton, List.map_singleton, hv]

/-- There is as much left to read in both runs. -/
theorem even_allValues : Even R (Agree (Option.map (List.map (Value.map f))))
    (fun s => (values (s.rest.length + 1)).run s) fun s => (values (s.rest.length + 1)).run s := by
  refine ⟨fun {s t} h => ?_⟩
  show Linked R _ ((values (s.rest.length + 1)).run s) _
  rw [h.rest.length_eq]
  exact (even_values hR _).run h

theorem even_list : Even R (Agree (Option.map (List.map (Value.map f)))) list list := by
  refine (even_expect hR _ _).bind_bool ?_ .none
  refine (even_sees hR _).bind_bool ((even_complain hR (.refl _)).bind fun _ _ _ => .none) ?_
  refine (even_allValues hR).bind_option .none fun vs vs' hvs => ?_
  exact (even_expect hR _ _).bind_bool (.some hvs) .none

/-! ## Comparisons -/

theorem even_bounds : Even R (Agree (Option.map (Test.map f))) bounds bounds := by
  refine (even_value hR).bind_option .none fun low low' hlow => ?_
  refine (even_expect hR _ _).bind_bool ?_ .none
  refine (even_value hR).bind_option .none fun high high' hhigh => .some ?_
  rw [Test.map, Test.map, hlow, hhigh]

theorem even_nullTest : Even R (Agree (Option.map (Test.map f))) nullTest nullTest := by
  refine (even_eat hR _).bind fun negated negated' h => ?_
  subst h
  exact (even_expect hR _ _).bind_bool (.some rfl) .none

theorem even_test : Even R (Agree (Option.map (Test.map f))) test test := by
  refine ⟨fun {s t} h => ?_⟩
  rw [run_test, run_test, h.kind_next hR]
  split
  · next hcomparison =>
      have hkind : s.next.kind ≠ .eof := by
        rw [h.kind_next hR]
        intro heof
        rw [heof] at hcomparison
        cases hcomparison
      have hoperator : ∀ v, Test.map f (.compare t.next v) = .compare (f s.next) (v.map f) := by
        intro v
        rw [hR.image h.next hkind]
        rfl
      exact ((even_value hR).run h.advance).map_option (Test.compare (f s.next))
        (fun _ => by rfl) hoperator
  split
  · exact ((even_list hR).run h.advance).map_option Test.isIn (fun _ => by rfl) fun _ => by rfl
  split
  · exact (even_bounds hR).run h.advance
  split
  · exact (even_nullTest hR).run h.advance
  · exact ⟨rfl, h.complain hR h.next (.refl _)⟩

theorem even_joinWord : Even R (Agree (Option.map f)) joinWord joinWord := by
  refine ⟨fun {s t} h => ?_⟩
  rw [run_joinWord, run_joinWord, h.kind_next hR]
  split
  · next hword =>
      have hkind : s.next.kind ≠ .eof := by
        rcases hword with hword | hword <;> simp [h.kind_next hR, hword]
      exact ⟨congrArg some (hR.image h.next hkind), h.advance⟩
  · exact ⟨rfl, h⟩

theorem even_comparison :
    Even R (Agree (Option.map (Comparison.map f))) comparison comparison := by
  refine (even_joinWord hR).bind fun join join' hjoin => ?_
  refine (even_selectable hR _).bind_option .none fun left left' hleft => ?_
  refine (even_test hR).bind_option .none fun test test' htest => .some ?_
  rw [Comparison.map, Comparison.map, hjoin, hleft, htest]

/-! ## Conditions -/

theorem even_skipDeepGroup :
    Even R (Agree (Option.map (Primary.map f))) skipDeepGroup skipDeepGroup :=
  (even_complain hR (.refl _)).bind fun _ _ _ => even_advance.bind fun _ _ _ =>
    (even_skipGroup hR).bind fun _ _ _ => .none

omit hR in
theorem even_nested {α : Type} {Q : α → α → Prop} {inner : Parser α} (h : Even R Q inner inner) :
    Even R Q (nested inner) (nested inner) := by
  refine ⟨fun {s t} hst => ?_⟩
  obtain ⟨hQ, hinner⟩ := h.run (hst.withDepth (congrArg (· + 1) hst.depth))
  rw [run_nested, run_nested]
  exact ⟨hQ, hinner.withDepth (congrArg (· - 1) hinner.depth)⟩

theorem even_group {inner : Parser Tree.Disjunction}
    (h : Even R (Agree (Disjunction.map f)) inner inner) :
    Even R (Agree (Option.map (Primary.map f))) (group inner) (group inner) := by
  refine ⟨fun {s t} hst => ?_⟩
  rw [run_group, run_group]
  refine ((even_nested h).bind fun d d' hd => ?_).run hst.advance
  refine (even_expect hR _ _).bind_bool (.some ?_) .none
  rw [Primary.map_group, Primary.map_group, hd]

theorem even_comparisonTerm :
    Even R (Agree (Option.map (Primary.map f))) comparisonTerm comparisonTerm := by
  refine (even_comparison hR).bind_option ((even_skipUntil hR _).bind fun _ _ _ => .none) ?_
  refine fun c c' hc => .some ?_
  rw [Primary.map_comparison, Primary.map_comparison, hc]

theorem even_primary {inner : Parser Tree.Disjunction}
    (h : Even R (Agree (Disjunction.map f)) inner inner) :
    Even R (Agree (Option.map (Primary.map f))) (primary inner) (primary inner) := by
  refine ⟨fun {s t} hst => ?_⟩
  rw [run_primary, run_primary, hst.kind_next hR, hst.depth]
  split
  · split
    · exact (even_skipDeepGroup hR).run hst
    · exact (even_group hR h).run hst
  · exact (even_comparisonTerm hR).run hst

theorem even_disjunctionWithin (levels : Nat) :
    Even R (Agree (Disjunction.map f)) (disjunctionWithin levels) (disjunctionWithin levels) := by
  induction levels with
  | zero => exact .pure rfl
  | succ levels ih =>
      have hterms := even_separated hR .and (even_primary hR ih)
      exact even_separated hR .or (hterms.map fun _ _ h => congrArg some h)

/-! ## Queries -/

theorem even_groupItem :
    Even R (Agree (Option.map (Selectable.map f))) groupItem groupItem :=
  (even_selectable hR _).bind_option ((even_skipUntil hR _).bind fun _ _ _ => .none)
    fun _ _ h => .some h

theorem even_groupBy : Even R (Agree (List.map (Selectable.map f))) groupBy groupBy :=
  even_advance.bind fun _ _ _ => (even_expect hR _ _).bind_bool
    (even_separated hR _ (even_groupItem hR)) ((even_skipUntil hR _).bind fun _ _ _ => .pure rfl)

theorem even_groupByClause :
    Even R (Agree (Option.map (List.map (Selectable.map f)))) groupByClause groupByClause :=
  (even_sees hR _).bind_bool ((even_groupBy hR).bind fun _ _ h =>
    (even_skipUnexpected hR _).bind fun _ _ _ => .some h) .none

theorem even_havingClause :
    Even R (Agree (Option.map (Disjunction.map f))) havingClause havingClause :=
  (even_eat hR _).bind_bool ((even_disjunctionWithin hR _).bind fun _ _ h =>
    (even_skipUnexpected hR _).bind fun _ _ _ => .some h) .none

theorem even_root : Even R (Agree (Root.map f)) root root := by
  refine (even_disjunctionWithin hR _).bind fun condition condition' hcondition => ?_
  refine (even_skipUnexpected hR _).bind fun _ _ _ => ?_
  refine (even_groupByClause hR).bind fun grouping grouping' hgrouping => ?_
  refine (even_havingClause hR).bind fun having having' hhaving => .pure ?_
  rw [Agree, Root.map, Root.map, hcondition, hgrouping, hhaving]

/-! ## Parses -/

omit hR in
theorem forall₂_takeWhile {p : Token → Bool} (hp : ∀ {t u}, R t u → p t = p u)
    {ts us : List Token} (h : List.Forall₂ R ts us) :
    List.Forall₂ R (ts.takeWhile p) (us.takeWhile p) := by
  induction h with
  | nil => exact .nil
  | @cons t u ts us htu _ ih =>
      rw [List.takeWhile_cons, List.takeWhile_cons, hp htu]
      split
      · exact .cons htu ih
      · exact .nil

/-- The first end marks stand side by side. -/
theorem pair_find?_eof {ts us : List Token} (h : List.Forall₂ R ts us) {t : Token}
    (ht : ts.find? (·.kind = .eof) = some t) : ∃ u, us.find? (·.kind = .eof) = some u ∧ R t u := by
  induction h with
  | nil => cases ht
  | @cons t' u ts us htu _ ih =>
      rw [List.find?_cons] at ht ⊢
      rw [hR.kind htu] at ht
      split at ht
      · cases ht
        exact ⟨u, rfl, htu⟩
      · exact ih ht

theorem twins_ofTokens {ts us : List Token} (h : List.Forall₂ R ts us)
    (heof : ∃ t ∈ ts, t.kind = .eof) : Twins R (.ofTokens ts) (.ofTokens us) := by
  have hstop : (ts.find? (·.kind = .eof)).isSome := by simpa using heof
  obtain ⟨e, he⟩ := Option.isSome_iff_exists.mp hstop
  obtain ⟨e', he', hee'⟩ := pair_find?_eof hR h he
  refine ⟨forall₂_takeWhile (fun htu => by rw [hR.kind htu]) h, ?_, rfl, .nil⟩
  show R ((ts.find? _).getD _) ((us.find? _).getD _)
  rw [he, he']
  exact hee'

/-- **The parses of two lists of tokens** that the parser cannot tell apart: the trees agree in what
`f` makes of their tokens, and the complaints are about the same tokens. -/
theorem parse_twins {ts us : List Token} (h : List.Forall₂ R ts us)
    (heof : ∃ t ∈ ts, t.kind = .eof) :
    (Tree.parse ts).1.map f = (Tree.parse us).1.map f ∧
      List.Forall₂ (Matches R) (Tree.parse ts).2.problems (Tree.parse us).2.problems := by
  obtain ⟨hroot, hend⟩ := (even_root hR).run (twins_ofTokens hR h heof)
  simp only [parse_eq]
  exact ⟨hroot, hend.problems.imp fun _ _ h => h.matches⟩

end

end FilterQuery.Parser
