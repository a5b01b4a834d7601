import FilterQuery.Proofs.Parser.Steps

/-!
# What the parser complains about

A parse is a course of steps, so what each step keeps holds of all of it. In this way complaints
are about tokens of the text, and no two of them are at one place (`Parser.tracks_parse`).
-/

set_option autoImplicit false

namespace FilterQuery.Parser

/-! ## What every step keeps -/

/-- The tokens that are left are some of those given, the complaints are about tokens given, and
no two of them are at one place. -/
structure Tracks (ts : List Token) (s : State) : Prop where
  stop : s.stop ∈ ts
  rest : ∀ t ∈ s.rest, t ∈ ts
  complaints : ∀ p ∈ s.report.problems, ∃ t ∈ ts, ∃ message, p = .grammatical (.atToken t message)
  apart : s.report.problems.Pairwise fun p q => p.offset ≠ q.offset

namespace Tracks

variable {ts : List Token} {s t : State}

theorem next_mem (h : Tracks ts s) : s.next ∈ ts := by
  unfold State.next
  cases hrest : s.rest with
  | nil => exact h.stop
  | cons t rest => exact h.rest t (by simp [hrest])

theorem drop (h : Tracks ts s) {rest : List Token} (hrest : rest <:+ s.rest) :
    Tracks ts { s with rest } :=
  ⟨h.stop, fun t ht => h.rest t (hrest.subset ht), h.complaints, h.apart⟩

/-- A complaint about one of the tokens: at a place of its own, or left out. -/
theorem complain (h : Tracks ts s) {u : Token} (hu : u ∈ ts) (c : Complaint) :
    Tracks ts (s.complain u c) := by
  unfold State.complain Report.addSyntax
  split
  · exact h
  · next hfree =>
      refine ⟨h.stop, h.rest, ?_, ?_⟩
      · refine List.forall_mem_append.mpr ⟨h.complaints, fun p hp => ?_⟩
        exact ⟨u, hu, _, List.mem_singleton.mp hp⟩
      · refine List.pairwise_append.mpr ⟨h.apart, List.pairwise_singleton _ _, fun p hp q hq => ?_⟩
        obtain ⟨t, -, message, rfl⟩ := h.complaints p hp
        obtain rfl := List.mem_singleton.mp hq
        intro hoffset
        refine hfree (List.any_eq_true.mpr ⟨_, hp, ?_⟩)
        exact beq_iff_eq.mpr hoffset

/-- **Each step keeps it.** -/
theorem of_step (h : Tracks ts s) (hstep : Step s t) : Tracks ts t := by
  cases hstep with
  | take => exact h.drop (List.tail_suffix s.rest)
  | enter => exact ⟨h.stop, h.rest, h.complaints, h.apart⟩
  | leave => exact ⟨h.stop, h.rest, h.complaints, h.apart⟩
  | complain c => exact h.complain h.next_mem c
  | refuse =>
      have hadvance : Tracks ts s.advance := h.drop (List.tail_suffix s.rest)
      exact hadvance.complain h.next_mem .outOfRange

/-- **Every course of steps keeps it.** -/
theorem of_course (h : Tracks ts s) (hcourse : Course s t) : Tracks ts t := by
  induction hcourse with
  | refl => exact h
  | tail _ hstep ih => exact ih.of_step hstep

end Tracks

/-- The state before tokens with an end mark. -/
theorem tracks_ofTokens {ts : List Token} (heof : ∃ t ∈ ts, t.kind = .eof) :
    Tracks ts (.ofTokens ts) := by
  have hstop : (ts.find? (·.kind = .eof)).isSome := by simpa using heof
  obtain ⟨e, he⟩ := Option.isSome_iff_exists.mp hstop
  refine ⟨?_, fun t ht => (List.takeWhile_subset _) ht, nofun, .nil⟩
  show (ts.find? (·.kind = .eof)).getD (endAfter ts) ∈ ts
  rw [he]
  exact List.mem_of_find?_eq_some he

/-- **The complaints of a parse** are about tokens of the list, and no two are at one place. -/
theorem tracks_parse {ts : List Token} (heof : ∃ t ∈ ts, t.kind = .eof) :
    (∀ p ∈ (Tree.parse ts).2.problems, ∃ t ∈ ts, ∃ message, p = .grammatical (.atToken t message)) ∧
      (Tree.parse ts).2.problems.Pairwise fun p q => p.offset ≠ q.offset := by
  have hend := (tracks_ofTokens heof).of_course (walks_root _ (Nat.zero_le _)).course
  simp only [parse_eq]
  exact ⟨hend.complaints, hend.apart⟩

end FilterQuery.Parser
