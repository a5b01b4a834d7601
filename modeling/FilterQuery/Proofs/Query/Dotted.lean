import FilterQuery.Target
import Mathlib.Data.List.Basic
import Mathlib.Data.Set.Function

/-!
# Dotted paths

A path is shown with dots between its identifiers, and a dotted text is split at its dots. Splitting
is undone by joining for every text. The other way round it is not: an identifier that has a dot in
it falls apart, and the path without identifiers comes back as the one empty identifier. On all
other paths, the plain ones, joining is undone by splitting, so that the dotted text in a refusal
tells which path was refused (`Path.ofDotted_dotted_iff`).
-/

set_option autoImplicit false

namespace FilterQuery

/-- Refusals of different texts are worded differently. -/
theorem TargetError.message_unknownField_inj {s t : String}
    (h : (TargetError.unknownField s).message = (TargetError.unknownField t).message) : s = t :=
  String.append_right_inj _ |>.mp h

namespace Path

/-- There is an identifier, and a dot in none of them. -/
def Plain (p : Path) : Prop := p.identifiers ≠ [] ∧ ∀ name ∈ p.identifiers, '.' ∉ name.toList

/-! ## Splitting and joining -/

theorem splitDots_eq_splitOn (cs : List Char) : splitDots cs = cs.splitOn '.' := by
  induction cs with
  | nil => rfl
  | cons c cs ih =>
      rw [splitDots, ih, List.splitOn_cons_eq_if_modifyHead]
      by_cases hdot : c = '.'
      · rw [if_pos hdot, if_pos (by simpa using hdot)]
      · rw [if_neg hdot, if_neg (by simpa using hdot)]
        obtain ⟨part, parts, hparts⟩ := List.exists_cons_of_ne_nil (List.splitOn_ne_nil '.' cs)
        rw [hparts]
        rfl

theorem joinDots_eq_intercalate (parts : List (List Char)) :
    joinDots parts = ['.'].intercalate parts := by
  induction parts with
  | nil => rfl
  | cons part parts ih =>
      cases parts with
      | nil => simp [joinDots]
      | cons next parts =>
          rw [joinDots, ih, List.intercalate_cons_cons]
          · simp
          · exact List.cons_ne_nil _ _

theorem dot_notMem_of_mem_splitDots {cs part : List Char} (h : part ∈ splitDots cs) :
    '.' ∉ part := by
  induction cs generalizing part with
  | nil =>
      rw [splitDots, List.mem_singleton] at h
      exact h ▸ List.not_mem_nil
  | cons c cs ih =>
      rw [splitDots] at h
      split at h
      · rcases List.mem_cons.mp h with rfl | h
        · exact List.not_mem_nil
        · exact ih h
      · next hdot =>
          -- the character joins the first part of the rest
          split at h
          · next first parts hparts =>
              rw [hparts] at ih
              rcases List.mem_cons.mp h with rfl | h
              · exact List.not_mem_cons_of_ne_of_not_mem (Ne.symm hdot) (ih List.mem_cons_self)
              · exact ih (List.mem_cons_of_mem _ h)
          · next hparts => exact absurd (splitDots_eq_splitOn cs ▸ hparts) (List.splitOn_ne_nil _ _)

/-! ## Paths -/

theorem dotted_ofDotted (s : String) : (ofDotted s).dotted = s := by
  have hparts : (ofDotted s).identifiers.map String.toList = splitDots s.toList := by
    rw [ofDotted, List.map_map]
    exact List.map_id'' (fun cs => String.toList_ofList) _
  rw [dotted, hparts, splitDots_eq_splitOn, joinDots_eq_intercalate, List.intercalate_splitOn,
    String.ofList_toList]

theorem ofDotted_dotted {p : Path} (h : p.Plain) : ofDotted p.dotted = p := by
  have hne : p.identifiers.map String.toList ≠ [] := by simpa using h.1
  have hdots : ∀ part ∈ p.identifiers.map String.toList, '.' ∉ part := List.forall_mem_map.mpr h.2
  have hsplit : splitDots p.dotted.toList = p.identifiers.map String.toList := by
    rw [dotted, String.toList_ofList, splitDots_eq_splitOn, joinDots_eq_intercalate,
      List.splitOn_intercalate '.' hdots hne]
  rw [ofDotted, hsplit, List.map_map]
  exact congrArg Path.mk (List.map_id'' (fun name => String.ofList_toList) _)

theorem plain_ofDotted (s : String) : (ofDotted s).Plain := by
  constructor
  · simp [ofDotted, splitDots_eq_splitOn]
  · refine List.forall_mem_map.mpr fun part hpart => ?_
    rw [String.toList_ofList]
    exact dot_notMem_of_mem_splitDots hpart

theorem injOn_dotted : Set.InjOn dotted {p | p.Plain} := by
  have hinv : Set.LeftInvOn ofDotted dotted {p | p.Plain} := fun _ hp => ofDotted_dotted hp
  exact hinv.injOn

/-- **Dotted texts and plain paths are the same thing.** Splitting a text and joining the parts
gives the text; joining the identifiers of a path and splitting the text gives the path exactly if
it is plain; so no two plain paths have one dotted text, or are refused as unknown in the same
words. -/
theorem ofDotted_dotted_iff :
    (∀ s, (ofDotted s).dotted = s) ∧
      (∀ p : Path, ofDotted p.dotted = p ↔ p.Plain) ∧
      Set.InjOn dotted {p | p.Plain} ∧
      Set.InjOn (fun p : Path => (TargetError.unknownField p.dotted).message) {p | p.Plain} := by
  refine ⟨dotted_ofDotted, fun p => ⟨fun h => ?_, ofDotted_dotted⟩, injOn_dotted, ?_⟩
  · rw [← h]
    exact plain_ofDotted _
  · exact fun p hp q hq h => injOn_dotted hp hq (TargetError.message_unknownField_inj h)

/-- The path without identifiers is shown like the path of one empty identifier. -/
example : ofDotted (dotted ⟨[]⟩) = ⟨[""]⟩ := by decide

end Path

end FilterQuery
